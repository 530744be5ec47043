import Criteria.Proofs.Consolidation
import Criteria.Proofs.Spelling
import Criteria.Proofs.Translation

/-!
# Planting and reading back

**Theorem (`ensures_encode`, `ensures_express`).** The node of an expression means what the
expression does, and so does the expression of a valid node, which is the one that the node spells
(`exists_express`).

Forests grow as their stores and translators do: words and roots stay, lists are added, and what is
remembered is true. A forest that is made from expressions is valid, and its roots mean what the
expressions do (`valid_ofExpression`, `valid_ofExpressions`).
-/

namespace Criteria

namespace Forest

variable {ε α : Type} {f g h : Forest} {r : Record} {n : Node} {b : Bool} {fails : Fault → Prop}

/-! ## Growth -/

/-- Words and roots are the same, and lists were added at most. -/
structure Extends (f g : Forest) : Prop where
  vocabulary_eq : g.vocabulary = f.vocabulary
  store : f.store.Extends g.store
  roots_eq : g.roots = f.roots

theorem Extends.refl (f : Forest) : f.Extends f := ⟨rfl, .refl _, rfl⟩

theorem Extends.trans (hf : f.Extends g) (hg : g.Extends h) : f.Extends h where
  vocabulary_eq := hg.vocabulary_eq.trans hf.vocabulary_eq
  store := hf.store.trans hg.store
  roots_eq := hg.roots_eq.trans hf.roots_eq

/-- Forests grow by lists and by what is remembered. -/
def growth : Growth ε Forest where
  valid := Valid
  le := Extends
  fails _ _ := True
  refl := .refl
  trans := .trans

/-- A valid node with the value `b` on a record. -/
def Means (r : Record) (f : Forest) (n : Node) (b : Bool) : Prop :=
  Store.Means f.vocabulary r True f.store n b

theorem Means.holds (h : f.Means r n b) : f.holds r n = b := Store.Means.holds h trivial

theorem Means.stable (hf : f.Valid) (le : f.Extends g) (h : f.Means r n b) : g.Means r n b := by
  unfold Means
  rw [le.vocabulary_eq]
  exact Store.Means.stable hf.store le.store h

theorem validNode_of_extends (le : f.Extends g) (h : f.ValidNode n) : g.ValidNode n := by
  unfold ValidNode
  rw [le.vocabulary_eq]
  exact h.mono le.store

theorem build_eq_ok {x : Build α} {a : α} {s : Store} (h : x f.store = .ok a s) :
    build x f = .ok a { f with store := s } := by
  obtain ⟨t, store, roots⟩ := f
  simp only [build, show x store = .ok a s from h]

theorem ensures_build {x : Build α} {Q : α → Store → Prop}
    (h : (Store.growth f.vocabulary).Ensures x f.store Q) :
    growth.Ensures (build x) f fun a g => g.vocabulary = f.vocabulary ∧ Q a g.store := by
  obtain ⟨t, s, roots⟩ := f
  refine h.lift (⟨t, ·, roots⟩) id ?_ (fun hf => hf.store) (fun hf s' valid le => ?_)
    (fun _ _ _ _ => trivial) (fun _ _ _ _ hQ => ⟨rfl, hQ⟩)
  · simp only [build]
    cases x s <;> rfl
  · exact ⟨⟨valid, hf.translator, fun n hn => (hf.roots n hn).mono le⟩, rfl, le, rfl⟩

/-- A node that is built means in the forest what it means in the store. -/
theorem ensures_build_node {x : Build Node}
    (h : (Store.growth f.vocabulary).Ensures x f.store fun n s =>
      Store.Means f.vocabulary r True s n b) :
    growth.Ensures (build x) f fun n g => g.Means r n b := by
  refine (ensures_build h).mono fun n g _ _ ⟨same, means⟩ => ?_
  unfold Means
  rw [same]
  exact means

theorem translate_eq_ok {x : Attempt Translator α} {a : α} {t : Translator}
    (h : x f.translator = .ok a t) : translate x f = .ok a { f with translator := t } := by
  obtain ⟨t', store, roots⟩ := f
  simp only [translate, show x t' = .ok a t from h]

/-- Another translator over the same words. -/
theorem Valid.withTranslator {t : Translator} (hf : f.Valid) (faithful : t.Faithful)
    (same : t.vocabulary = f.vocabulary) :
    Valid { f with translator := t } ∧ f.Extends { f with translator := t } := by
  refine ⟨⟨?_, faithful, fun n hn => ?_⟩, same, .refl _, rfl⟩
  · show f.store.Valid t.vocabulary
    rw [same]
    exact hf.store
  · show f.store.ValidNode t.vocabulary n
    rw [same]
    exact hf.roots n hn

theorem ensures_translate {x : Attempt Translator α} {Q : α → Translator → Prop}
    (h : (Translator.growth fails).Ensures x f.translator Q) :
    growth.Ensures (translate x) f fun a g => Q a g.translator := by
  obtain ⟨t, s, roots⟩ := f
  refine h.lift (⟨·, s, roots⟩) id ?_ (fun hf => hf.translator)
    (fun hf t' valid le => hf.withTranslator valid le) (fun _ _ _ _ => trivial)
    (fun _ _ _ _ hQ => hQ)
  simp only [translate]
  cases x t <;> rfl

/-! ## Planting -/

theorem means_of_codes {l : Leaf} (h : f.vocabulary.Codes l n) : f.Means r n (l.holds r) := by
  rw [← h.holds r]
  exact .leaf (Vocabulary.encodes_iff.2 ⟨l, h⟩)

theorem means_ofConstant (c : Constant) : f.Means r (.ofConstant c) (decide (c = .all)) := by
  cases c with
  | all => exact .all
  | none => exact .none

/-- A leaf whose words are there is always planted. -/
theorem encode_of_codes {l : Leaf} (hf : f.translator.Faithful) (code : f.vocabulary.Codes l n) :
    ∃ t, encode (.leaf l) f = .ok n { f with translator := t } ∧
      t.Faithful ∧ t.vocabulary = f.vocabulary := by
  obtain ⟨t, run, rest⟩ := Translator.encodeLeaf_of_codes hf code
  rw [encode]
  exact ⟨t, translate_eq_ok run, rest⟩

/-- Over the words of `v`, an expression is planted as a node and the lists of `s` become those of
`t`, whatever a translator remembers. -/
def Planted (v : Vocabulary) (s : Store) (e : Expression) (n : Node) (t : Store) : Prop :=
  ∀ f : Forest, f.store = s → f.vocabulary = v → f.translator.Faithful →
    ∃ u, encode e f = .ok n { f with translator := u, store := t } ∧ u.Faithful ∧
      u.vocabulary = f.vocabulary

/-- So are some expressions, in turn. -/
def PlantedAll (v : Vocabulary) (s : Store) (es : List Expression) (ns : List Node)
    (t : Store) : Prop :=
  ∀ f : Forest, f.store = s → f.vocabulary = v → f.translator.Faithful →
    ∃ u, encodeAll es f = .ok ns { f with translator := u, store := t } ∧ u.Faithful ∧
      u.vocabulary = f.vocabulary

section Planted

variable {v : Vocabulary} {s t u : Store} {e : Expression} {es : List Expression} {ns : List Node}

namespace PlantedAll

theorem nil : PlantedAll v s [] [] s := by
  rintro f rfl _ faithful
  exact ⟨f.translator, by rw [encodeAll]; rfl, faithful, rfl⟩

theorem cons (head : Planted v s e n t) (tail : PlantedAll v t es ns u) :
    PlantedAll v s (e :: es) (n :: ns) u := by
  rintro f store words faithful
  obtain ⟨tr, run, faithful, same⟩ := head f store words faithful
  obtain ⟨tr', run', faithful', same'⟩ :=
    tail { f with translator := tr, store := t } rfl (same.trans words) faithful
  refine ⟨tr', ?_, faithful', same'.trans same⟩
  rw [encodeAll, bind_eq_of_ok run, bind_eq_of_ok run']
  rfl

end PlantedAll

namespace Planted

theorem constant (c : Constant) : Planted v s (.constant c) (.ofConstant c) s := by
  rintro f rfl _ faithful
  refine ⟨f.translator, ?_, faithful, rfl⟩
  rw [encode]
  exact translate_eq_ok rfl

theorem leaf {l : Leaf} (code : v.Codes l n) : Planted v s (.leaf l) n s := by
  rintro f rfl rfl faithful
  exact encode_of_codes faithful code

theorem combined {k : Connective} (members : PlantedAll v s es ns t)
    (joined : t.combine k ns = .ok (n, u)) : Planted v s (.combined k es) n u := by
  rintro f store words faithful
  obtain ⟨tr, run, faithful, same⟩ := members f store words faithful
  refine ⟨tr, ?_, faithful, same⟩
  rw [encode]
  show (do let ms ← encodeAll es; build (.combine k ms)) f = _
  rw [bind_eq_of_ok run]
  exact build_eq_ok (by rw [Build.combine, joined])

/-- The forest of an expression has its node for a root. -/
theorem ofExpression (words : Vocabulary.ofExpression e = .ok v)
    (h : Planted v (.empty Store.defaultThreshold) e n t) :
    ∃ u, Forest.ofExpression e = .ok ⟨u, t, [n]⟩ ∧ u.Faithful ∧ u.vocabulary = v := by
  obtain ⟨u, run, faithful, same⟩ :=
    h (.ofVocabulary v) rfl rfl (Translator.faithful_ofVocabulary v)
  refine ⟨u, ?_, faithful, same⟩
  refine bind_eq_ok_iff.2 ⟨v, words, bind_eq_ok_iff.2 ⟨(n, ⟨u, t, []⟩), ?_, rfl⟩⟩
  rw [complete, run]
  rfl

end Planted

end Planted

mutual

/-- The node of an expression means what the expression does. -/
theorem ensures_encode (r : Record) (e : Expression) (f : Forest) :
    growth.Ensures (encode e) f fun n g => g.Means r n (e.holds r) := by
  match e with
  | .constant c =>
    rw [encode]
    exact .pure fun _ => means_ofConstant c
  | .leaf l =>
    rw [encode]
    exact (ensures_translate Translator.ensures_encodeLeaf).mono fun n g _ _ code =>
      means_of_codes code
  | .combined k members =>
    rw [encode]
    refine (ensures_encodeAll r members f).bind fun ns g _ _ each => ?_
    have joins : Store.Joins g.vocabulary r True g.store k ns
        (Expression.holds r (.combined k members)) := by
      exact .of_forall₂ (fun _ => (Expression.holds_combined k members).symm) each
    exact ensures_build_node (Store.ensures_combine joins)

theorem ensures_encodeAll (r : Record) (es : List Expression) (f : Forest) :
    growth.Ensures (encodeAll es) f fun ns g =>
      List.Forall₂ (fun e n => g.Means r n (Expression.holds r e)) es ns := by
  match es with
  | [] =>
    rw [encodeAll]
    exact .pure fun _ => .nil
  | e :: es =>
    rw [encodeAll]
    refine (ensures_encode r e f).bind fun n g hg _ head => ?_
    refine (ensures_encodeAll r es g).bind fun ns h _ le tail => .pure fun _ => ?_
    exact .cons (Means.stable hg le head) tail

end

theorem complete_eq_ok {x : Attempt Forest α} {a : α} (h : complete x f = .ok (a, g)) :
    x f = .ok a g := by
  unfold complete at h
  split at h
  · next eq =>
    cases h
    exact eq
  · cases h

/-- New roots of a valid forest. -/
theorem Valid.withRoots {roots : List Node} (hf : f.Valid) (hr : ∀ n ∈ roots, f.ValidNode n) :
    Valid { f with roots } := ⟨hf.store, hf.translator, hr⟩

theorem valid_ofExpression {e : Expression} (h : ofExpression e = .ok f) :
    f.Valid ∧ ∃ n, f.roots = [n] ∧ ∀ r, f.holds r n = e.holds r := by
  unfold ofExpression at h
  obtain ⟨v, -, h⟩ := bind_eq_ok_iff.1 h
  obtain ⟨⟨n, g⟩, run, h⟩ := bind_eq_ok_iff.1 h
  cases h
  have spec := fun r => (ensures_encode r e _).of_ok (valid_ofVocabulary v) (complete_eq_ok run)
  obtain ⟨hg, -, means⟩ := spec fun _ => none
  refine ⟨hg.withRoots fun m hm => ?_, n, rfl, fun r => (spec r).2.2.holds⟩
  exact List.mem_singleton.1 hm ▸ means.valid

theorem valid_ofExpressions {es : List Expression} (h : ofExpressions es = .ok f) :
    f.Valid ∧ ∀ r, List.Forall₂ (fun e n => f.holds r n = e.holds r) es f.roots := by
  unfold ofExpressions at h
  obtain ⟨v, -, h⟩ := bind_eq_ok_iff.1 h
  obtain ⟨⟨ns, g⟩, run, h⟩ := bind_eq_ok_iff.1 h
  cases h
  have spec := fun r => (ensures_encodeAll r es _).of_ok (valid_ofVocabulary v) (complete_eq_ok run)
  obtain ⟨hg, -, means⟩ := spec fun _ => none
  refine ⟨hg.withRoots fun m hm => ?_, fun r => (spec r).2.2.imp fun e n h => h.holds⟩
  obtain ⟨e, -, h⟩ := exists_of_mem_forall₂ means hm
  exact h.valid

/-! ## Reading back -/

/-- A valid node that nests less deep than there are levels is read back as what it spells. -/
theorem ensures_expressWithin {v : Vocabulary} {t : Translator} {s : Store} {fuel : Nat}
    (hv : t.vocabulary = v) (hs : s.Valid v) (hn : s.ValidNode v n) (deep : n.level < fuel) :
    (Translator.growth fails).Ensures (expressWithin s fuel n) t fun e _ => e = s.spell v n := by
  induction fuel generalizing n t with
  | zero => exact (Nat.not_lt_zero _ deep).elim
  | succ fuel ih =>
    rw [expressWithin]
    split
    · next hk =>
      unfold Translator.decode
      split
      · next all =>
        subst all
        exact .pure fun _ => rfl
      split
      · next none =>
        subst none
        exact .pure fun _ => rfl
      · next ne_all ne_none =>
        have constant : n.isConstant = false := by
          rw [Bool.eq_false_iff, Ne, Node.isConstant_iff]
          exact not_or.2 ⟨ne_all, ne_none⟩
        have code := hn.encodes constant hk
        refine (Translator.ensures_decodeLeaf (hv ▸ code)).bind fun l u _ le hl => .pure fun _ => ?_
        rw [show u.vocabulary = v from Eq.trans le hv] at hl
        rw [Store.spell_of_codes hl]
    · next k hk =>
      obtain ⟨ms, list, hc⟩ := hn.list? hk
      have hms := Store.members_eq_ok hk list
      have read : (Translator.growth fails).Ensures (ofExcept (s.members n)) t fun ms' u =>
          u.vocabulary = v ∧ ms = ms' := .ofExcept fun _ => ⟨ms, hms, hv, rfl⟩
      refine read.bind fun _ u _ _ ⟨hu, same⟩ => ?_
      subst same
      have lower : ∀ m ∈ ms, m.level < fuel := fun m hm =>
        Nat.lt_of_lt_of_le (Store.level_lt_of_mem hs.layered hk list hm) (Nat.le_of_lt_succ deep)
      have each : (Translator.growth fails).Ensures (ms.mapM (expressWithin s fuel)) u fun es _ =>
          List.Forall₂ (fun m e => e = s.spell v m) ms es :=
        .mapM (P := fun m u => s.ValidNode v m ∧ Translator.vocabulary u = v)
          (fun _ _ _ _ le h => ⟨h.1, Eq.trans le h.2⟩) (fun _ _ _ _ _ _ h => h)
          (fun m hm u h => ih h.2 h.1 (lower m hm)) fun m hm => ⟨hs.members _ _ list m hm, hu⟩
      refine each.bind fun es _ _ _ hes => .pure fun _ => ?_
      have same : es = ms.map (s.spell v) := by
        rw [← List.forall₂_eq_eq_eq, List.forall₂_map_right_iff]
        exact hes.flip
      rw [Store.spell_combined hs hk list, same]
      exact Expression.join_of_two_le (by rw [List.length_map]; exact hc.two_le)

/-- A valid node has the same expression where the lists of its store are kept. -/
theorem expressWithin_of_list? {v : Vocabulary} {s t : Store} {fuel fuel' : Nat} (hs : s.Valid v)
    (keeps : ∀ {id l}, s.list? id = some l → t.list? id = some l) (hn : s.ValidNode v n)
    (deep : n.level < fuel) (deep' : n.level < fuel') :
    expressWithin t fuel' n = expressWithin s fuel n := by
  induction fuel generalizing n fuel' with
  | zero => exact (Nat.not_lt_zero _ deep).elim
  | succ fuel ih =>
    cases fuel' with
    | zero => exact (Nat.not_lt_zero _ deep').elim
    | succ fuel' =>
      rw [expressWithin, expressWithin]
      cases hk : n.connective? with
      | none => rfl
      | some k =>
        obtain ⟨ms, list, -⟩ := hn.list? hk
        have lower : ∀ m ∈ ms, m.level < n.level := fun m hm =>
          Store.level_lt_of_mem hs.layered hk list hm
        have each : ms.mapM (expressWithin t fuel') = ms.mapM (expressWithin s fuel) :=
          mapM_congr fun m hm => by
            have below := lower m hm
            exact ih (hs.members _ _ list m hm) (by omega) (by omega)
        rw [Store.members_eq_ok hk list, Store.members_eq_ok hk (keeps list)]
        exact congrArg (· >>= fun es => pure (Expression.join k es)) each

/-- To read a leaf is to decode it. -/
theorem express_of_decodeLeaf {l : Leaf} {t : Translator} (leaf : n.isLeaf = true)
    (run : Translator.decodeLeaf n f.translator = .ok l t) :
    express n f = .ok (.leaf l) { f with translator := t } := by
  obtain ⟨ne_all, ne_none⟩ := Node.ne_constant_of_isLeaf leaf
  refine translate_eq_ok ?_
  rw [expressWithin, Node.connective?_eq_none_iff.2 (Node.not_isCombined_of_isLeaf leaf)]
  simp only [Translator.decode, if_neg ne_all, if_neg ne_none]
  exact bind_eq_of_ok run

/-- The expression of a leaf code is the leaf. -/
theorem express_of_codes {l : Leaf} (hf : f.translator.Faithful) (code : f.vocabulary.Codes l n) :
    ∃ t, express n f = .ok (.leaf l) { f with translator := t } := by
  obtain ⟨t, run, -⟩ := Translator.decodeLeaf_of_codes hf code
  exact ⟨t, express_of_decodeLeaf code.isLeaf run⟩

/-- The expression that a node spells in a forest. -/
def spell (f : Forest) (n : Node) : Expression := f.store.spell f.vocabulary n

/-- What a valid node spells means what the node does. -/
theorem holds_spell (hf : f.Valid) (hn : f.ValidNode n) : (f.spell n).holds r = f.holds r n :=
  Store.holds_spell hf.store hn

/-- A valid node nests less deep than a search goes. -/
theorem ValidNode.level_lt (hn : f.ValidNode n) : n.level < f.store.size + 2 := by
  have := hn.level_le
  omega

/-- A valid node is always read back, as what it spells. -/
theorem exists_express (hf : f.Valid) (hn : f.ValidNode n) :
    ∃ t, express n f = .ok (f.spell n) { f with translator := t } ∧
      t.Faithful ∧ t.vocabulary = f.vocabulary := by
  have read : (Translator.growth fun _ => False).Ensures
      (expressWithin f.store (f.store.size + 2) n) f.translator _ :=
    ensures_expressWithin rfl hf.store hn hn.level_lt
  obtain ⟨e, t, run, faithful, same, rfl⟩ := read.exists_ok hf.translator fun _ _ => id
  exact ⟨t, translate_eq_ok run, faithful, same⟩

/-- The expression of a valid node means what the node does. -/
theorem ensures_express (hn : f.ValidNode n) :
    growth.Ensures (express n) f fun e _ => e.holds r = f.holds r n := by
  intro hf
  obtain ⟨t, run, faithful, same⟩ := exists_express hf hn
  obtain ⟨valid, le⟩ := hf.withTranslator faithful same
  rw [run]
  exact ⟨valid, le, holds_spell hf hn⟩

end Forest

end Criteria
