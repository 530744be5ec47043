import Criteria.Session
import Criteria.Proofs.Simplification

/-!
# Sessions stay valid

**Theorem (`Session.Reached.sound`).** Whatever is asked for, in whatever order, and whether it
succeeds or fails: the forest is valid, and so is every node that was returned and is not reclaimed.

Numbers are never used again. So a forest that *follows* another may have lost lists, but a list
that is there under an old number is the old one (`Forest.Follows`), and a node that was valid once
is valid as long as its list is there (`Forest.Traces`).
-/

namespace Criteria

/-! ## Forests that follow each other -/

namespace Forest

variable {f g h : Forest} {n : Node}

/-- Words keep their numbers, and lists that are there under old numbers are the old ones. -/
structure Follows (f g : Forest) : Prop where
  vocabulary : f.vocabulary.Within g.vocabulary
  size_le : f.store.size ≤ g.store.size
  list?_of : ∀ id < f.store.size, ∀ l, g.store.list? id = some l → f.store.list? id = some l

namespace Follows

theorem of_extends (within : f.vocabulary.Within g.vocabulary) (le : f.store.Extends g.store) :
    f.Follows g where
  vocabulary := within
  size_le := le.size_le
  list?_of _ lt _ hl := by rw [← le.list?_eq _ lt, hl]

theorem of_eq (vocabulary : g.vocabulary = f.vocabulary) (store : g.store = f.store) :
    f.Follows g := by
  apply of_extends
  · rw [vocabulary]
    exact .refl _
  · rw [store]
    exact .refl _

theorem trans (hf : f.Follows g) (hg : g.Follows h) : f.Follows h where
  vocabulary := hf.vocabulary.trans hg.vocabulary
  size_le := Nat.le_trans hf.size_le hg.size_le
  list?_of id lt l hl :=
    hf.list?_of id lt l (hg.list?_of id (Nat.lt_of_lt_of_le lt hf.size_le) l hl)

theorem sweep (f : Forest) : f.Follows f.sweep.2 where
  vocabulary := .refl _
  size_le := Nat.le_of_eq Store.size_sweep.symm
  list?_of _ _ _ hl := (Store.list?_of_sweep hl).2

theorem sweepAbove (f : Forest) (threshold : Nat) : f.Follows (f.sweepAbove threshold).2 := by
  rcases sweepAbove_cases f threshold with eq | eq
  · rw [eq]
    exact of_eq rfl rfl
  · rw [eq]
    exact sweep f

end Follows

theorem Extends.follows (le : f.Extends g) : f.Follows g :=
  .of_extends (le.vocabulary_eq ▸ .refl _) le.store

/-- A node that was issued, and is valid unless its list is gone. -/
structure Traces (f : Forest) (n : Node) : Prop where
  level_le : n.level ≤ f.store.size
  valid : (n.isCombined = true → f.store.list? n.number ≠ none) → f.ValidNode n

theorem ValidNode.traces (hn : f.ValidNode n) : f.Traces n := ⟨hn.level_le, fun _ => hn⟩

theorem Traces.follows (hn : f.Traces n) (follows : f.Follows g) : g.Traces n where
  level_le := Nat.le_trans hn.level_le follows.size_le
  valid there := by
    have old : ∀ l, g.store.list? n.number = some l → n.isCombined = true →
        f.store.list? n.number = some l := by
      intro l hl hc
      refine follows.list?_of _ ?_ l hl
      have := hn.level_le
      rwa [Node.level, if_pos hc] at this
    have before : f.ValidNode n := by
      refine hn.valid fun hc gone => ?_
      obtain ⟨l, hl⟩ := Option.ne_none_iff_exists'.1 (there hc)
      rw [old l hl hc] at gone
      cases gone
    cases before with
    | constant hn => exact .constant hn
    | leaf code => exact .leaf (follows.vocabulary.encodes code)
    | combined hk hl hc =>
      have comb := Node.isCombined_of_connective? hk
      obtain ⟨l, hl'⟩ := Option.ne_none_iff_exists'.1 (there comb)
      rw [old l hl' comb] at hl
      cases hl
      exact .combined hk hl' hc

end Forest

/-! ## Requests -/

/-- A valid forest that follows `f`, and nodes that are valid in it. -/
structure Reply.Sound (f : Forest) (y : Reply) : Prop where
  valid : y.forest.Valid
  follows : f.Follows y.forest
  nodes : ∀ n ∈ y.nodes, y.forest.ValidNode n

namespace Reply.Sound

variable {ε σ α : Type} {forest : σ → Forest} {s : σ}

theorem of_growth {nodes : α → List Node} {x : EStateM ε σ α} (hs : (forest s).Valid)
    (h : (Forest.growth.comap forest).Ensures x s fun a s =>
      ∀ n ∈ nodes a, (forest s).ValidNode n) : Sound (forest s) (.of forest nodes (x s)) := by
  cases run : x s with
  | ok a t =>
    obtain ⟨valid, le, returned⟩ := h.of_ok hs run
    exact ⟨valid, le.follows, returned⟩
  | error e t =>
    obtain ⟨valid, le, -⟩ := h.of_error hs run
    exact ⟨valid, le.follows, by simp [Reply.of]⟩

theorem of_node {x : EStateM ε σ Node} (hs : (forest s).Valid)
    (h : (Forest.growth.comap forest).Ensures x s fun n s => (forest s).ValidNode n) :
    Sound (forest s) (.of forest ([·]) (x s)) := by
  refine of_growth hs (h.mono fun n t _ _ valid m hm => ?_)
  rwa [List.mem_singleton.1 hm]

end Reply.Sound

theorem Rewriting.keeps_pass {v : Vocabulary} {r : Record} (x : Rewriting) :
    Pass.Keeps v r x.pass := by
  cases x with
  | prune => exact Pass.keeps_prune
  | distribute cleanup => exact Pass.keeps_distribute cleanup
  | factor => exact Pass.keeps_factor

theorem Node.isLeaf_of_leafOperator {n : Node} {op : Operator} (h : n.leafOperator = .ok op) :
    n.isLeaf = true := by
  unfold leafOperator at h
  split at h
  · cases h
  split at h
  · cases h
  split at h
  · cases h
  split at h
  · next hop =>
    unfold operator? at hop
    split at hop
    · assumption
    · cases hop
  · cases h

theorem Node.isLeaf_of_argument {n m : Node}
    (h : (do (← n.unknownOfArgument).negate) = Except.ok m) : n.isLeaf = true := by
  obtain ⟨u, hu, -⟩ := bind_eq_ok_iff.1 h
  obtain ⟨op, hop, -⟩ := bind_eq_ok_iff.1 hu
  exact isLeaf_of_leafOperator hop

theorem Node.isLeaf_of_reference {n m : Node}
    (h : (do (← n.unknownOfReference).negate) = Except.ok m) : n.isLeaf = true := by
  obtain ⟨u, hu, -⟩ := bind_eq_ok_iff.1 h
  obtain ⟨op, hop, -⟩ := bind_eq_ok_iff.1 hu
  exact isLeaf_of_leafOperator hop

namespace Forest

variable {f : Forest} {n : Node}

theorem sound_setRoots {roots : List Node} (hf : f.Valid) (hr : ∀ n ∈ roots, f.ValidNode n) :
    Reply.Sound f ⟨[], { f with roots }⟩ :=
  ⟨hf.withRoots hr, .of_eq rfl rfl, by simp⟩

/-- Only leaves have known checks, so it fails on any other node and leaves the forest as it is. -/
theorem ensures_knownCheck (hn : f.ValidNode n) :
    growth.Ensures (build (Build.knownCheck n)) f fun n' g => g.ValidNode n' := by
  cases hop : n.leafOperator with
  | ok op =>
    have code := hn.encodes_of_isLeaf (Node.isLeaf_of_leafOperator hop)
    exact (ensures_build_node (Store.ensures_knownCheck (r := fun _ => none) code)).mono
      fun n' g _ _ means => means.valid
  | error fault =>
    intro hf
    have run : build (Build.knownCheck n) f = .error fault f := by
      obtain ⟨t, s, roots⟩ := f
      have reply : Build.knownCheck n s = .error fault s := by
        unfold Build.knownCheck Build.read Node.unknownOfArgument
        rw [hop]
        rfl
      simp only [build, reply]
    rw [run]
    exact ⟨hf, .refl f, trivial⟩

theorem sound_mapRoots {x : Node → Pass Node} (hx : ∀ r, Pass.Keeps f.vocabulary r x)
    (hf : f.Valid) (budget : Budget) :
    Reply.Sound f (.of Prod.fst (fun _ => []) (mapRoots x (f, budget))) := by
  cases run : mapRoots x (f, budget) with
  | ok _ s =>
    obtain ⟨valid, same, le, -⟩ := mapRoots_ok hx hf run
    exact ⟨valid, .of_extends (same ▸ .refl _) le, by simp [Reply.of]⟩
  | error failure s =>
    obtain ⟨valid, le, -⟩ := mapRoots_error hx hf run
    exact ⟨valid, le.follows, by simp [Reply.of]⟩

theorem sound_recode {other : Forest} (hf : f.Valid) (ho : other.Valid) (hn : other.ValidNode n) :
    Reply.Sound f (.of id ([·]) (recode other n f)) :=
  .of_node hf ((ensures_recode (r := fun _ => none) ho hn).mono fun _ _ _ _ h => h.valid)

end Forest

/-- What is asked for with valid nodes keeps the forest valid and returns valid nodes. -/
theorem Request.sound_perform {f : Forest} {request : Request} (hf : f.Valid)
    (hn : ∀ n ∈ request.nodes, f.ValidNode n) : Reply.Sound f (request.perform f) := by
  -- Validity does not depend on the record, so any will do.
  let r : Record := fun _ => none
  cases request with
  | plant e => exact .of_node hf ((Forest.ensures_encode r e f).mono fun _ _ _ _ h => h.valid)
  | combine k members =>
    have joins : Store.Joins f.vocabulary r True f.store k members _ := ⟨hn, fun _ => rfl⟩
    exact .of_node hf ((Forest.ensures_build_node (Store.ensures_combine joins)).mono
      fun _ _ _ _ h => h.valid)
  | complement n =>
    have means : f.Means r n _ := .of_valid (hn n (by simp [nodes]))
    exact .of_node hf ((Forest.ensures_build_node (Store.ensures_complement means)).mono
      fun _ _ _ _ h => h.valid)
  | knownCheck n => exact .of_node hf (Forest.ensures_knownCheck (hn n (by simp [nodes])))
  | express n =>
    have valid : f.ValidNode n := hn n (by simp [nodes])
    exact .of_growth hf ((Forest.ensures_express (r := r) valid).mono fun _ _ _ _ _ => by simp)
  | rewrite x n budget =>
    have means : f.Means r n _ := .of_valid (hn n (by simp [nodes]))
    refine .of_node hf ((Forest.ensures_run (x.keeps_pass means)).lenient.mono fun n' s _ _ h => ?_)
    obtain ⟨same, means'⟩ := h
    unfold Forest.ValidNode
    rw [same]
    exact means'.valid
  | rewriteRoots x budget => exact Forest.sound_mapRoots (fun _ => x.keeps_pass) hf budget
  | simplify cleanup housekeeping budget =>
    have swept := hf.sweepAbove housekeeping
    have mapped := Forest.sound_mapRoots (fun _ => Pass.keeps_simplify cleanup) swept budget
    exact ⟨mapped.valid, (Forest.Follows.sweepAbove f housekeeping).trans mapped.follows,
      mapped.nodes⟩
  | setRoots roots => exact Forest.sound_setRoots hf hn
  | addRoot n =>
    refine Forest.sound_setRoots hf fun m hm => ?_
    rcases List.mem_append.1 hm with hm | hm
    · exact hf.roots m hm
    · exact hn m hm
  | sweep => exact ⟨hf.sweep, .sweep f, by simp [perform]⟩
  | sweepAbove threshold =>
    exact ⟨hf.sweepAbove threshold, .sweepAbove f threshold, by simp [perform]⟩

/-! ## Sessions -/

namespace Session

variable {x y : Session} {n : Node}

/-- The forest is valid, so is what was returned last, and what was returned before unless it is
reclaimed. -/
structure Sound (x : Session) : Prop where
  forest : x.forest.Valid
  last : ∀ n ∈ x.last, x.forest.ValidNode n
  earlier : ∀ n ∈ x.earlier, x.forest.Traces n

theorem Sound.validNode (hx : x.Sound) (hn : x.Usable n) : x.forest.ValidNode n := by
  cases hn with
  | constant hn => exact .constant hn
  | leaf code => exact .leaf code
  | combined hc hl known =>
    rcases known with last | earlier | root | ⟨id, l, hl, hm⟩
    · exact hx.last n last
    · refine (hx.earlier n earlier).valid fun _ => ?_
      rw [hl]
      exact Option.some_ne_none _
    · exact hx.forest.roots n root
    · exact hx.forest.store.members id l hl n hm

theorem sound_start {f : Forest} (hf : f.Valid) : (start f).Sound :=
  ⟨hf, by simp [start], by simp [start]⟩

theorem Sound.next {y : Reply} (hx : x.Sound) (hy : y.Sound x.forest) : (x.next y).Sound where
  forest := hy.valid
  last := hy.nodes
  earlier n hn := by
    rcases List.mem_append.1 hn with last | earlier
    · exact (hx.last n last).traces.follows hy.follows
    · exact (hx.earlier n earlier).follows hy.follows

/-- Every session in which only usable nodes were handed in is sound. -/
theorem Reached.sound (h : x.Reached) : x.Sound := by
  induction h with
  | ofVocabulary v => exact sound_start (Forest.valid_ofVocabulary v)
  | ofExpression eq => exact sound_start (Forest.valid_ofExpression eq).1
  | ofExpressions eq => exact sound_start (Forest.valid_ofExpressions eq).1
  | ofTranslator _ hx =>
    exact sound_start ⟨Store.valid_empty _ _, hx.forest.translator, by simp⟩
  | merge _ _ eq hx hy =>
    obtain ⟨valid, within, le, -⟩ := Forest.merge_eq_ok hx.forest hy.forest eq
    exact hx.next ⟨valid, .of_extends within le, by simp⟩
  | recode _ _ usable hx hy =>
    exact hx.next (Forest.sound_recode hx.forest hy.forest (hy.validNode usable))
  | perform request _ usable hx =>
    exact hx.next (Request.sound_perform hx.forest fun n hn => hx.validNode (usable n hn))

/-- The session after usable nodes were joined. -/
theorem Reached.combine (h : x.Reached) {k : Connective} {ms : List Node} {n : Node} {s : Store}
    (usable : ∀ m ∈ ms, x.Usable m) (joined : x.forest.store.combine k ms = .ok (n, s)) :
    Session.Reached ⟨{ x.forest with store := s }, [n], x.last ++ x.earlier⟩ := by
  have built : Build.combine k ms x.forest.store = .ok n s := by rw [Build.combine, joined]
  have reply : Request.perform x.forest (.combine k ms) = ⟨[n], { x.forest with store := s }⟩ := by
    simp only [Request.perform, Forest.build_eq_ok built]
    rfl
  have next := h.perform (.combine k ms) usable
  rwa [reply] at next

end Session

/-! ## A sample -/

namespace Sample

/-- The vocabulary of the name `a` and the value `x`. -/
def vocabulary : Vocabulary where
  names := WordList.empty.push "a" (by simp [WordList.number?, WordList.empty])
  values := WordList.empty.push "x" (by simp [WordList.number?, WordList.empty])
  names_le := by rw [WordList.size_push]; decide
  values_le := by rw [WordList.size_push]; decide

/-- The leaf `a = x`. -/
def equalLeaf : Leaf := ⟨false, "a", .equals, some (.value "x")⟩

/-- The leaf `a IS NOT UNKNOWN`. -/
def knownLeaf : Leaf := ⟨true, "a", .isUnknown, none⟩

/-- The leaf `a < x`. -/
def lessLeaf : Leaf := ⟨false, "a", .lessThan, some (.value "x")⟩

/-- The node of `a = x`. -/
def equal : Node := .leaf false .equals false 0 0

/-- The node of `a IS NOT UNKNOWN`. -/
def known : Node := .leaf true .isUnknown false 0 0

/-- The node of `a < x`. -/
def less : Node := .leaf false .lessThan false 0 0

/-- The node of the AND of the first two. -/
def both : Node := .combined .and 0

theorem codes_equal : vocabulary.Codes equalLeaf equal := .value (by decide) rfl rfl

theorem codes_known : vocabulary.Codes knownLeaf known := .check rfl

theorem codes_less : vocabulary.Codes lessLeaf less := .value (by decide) rfl rfl

/-- The store with the one list that the AND needs. -/
def store : Store :=
  (Store.empty Store.defaultThreshold).push [equal, known]
    (Store.find?_eq_none (by decide))

theorem combine_eq : (Store.empty Store.defaultThreshold).combine .and [equal, known] =
    .ok (both, store) :=
  Store.combine_of_new (by rfl) (by decide) (by decide) (by decide)

/-- The session in which the AND was built and made the root. -/
def session : Session := ⟨⟨.ofVocabulary vocabulary, store, [both]⟩, [], [both]⟩

/-- A session in which an AND of two leaves was built and made the root. -/
theorem reached_of_built {v : Vocabulary} {a b : Node} {s : Store} {l : List Node}
    (ha : v.Encodes a) (hb : v.Encodes b)
    (joined : (Store.empty Store.defaultThreshold).combine .and [a, b] = .ok (both, s))
    (list : s.list? 0 = some l) :
    Session.Reached ⟨⟨.ofVocabulary v, s, [both]⟩, [], [both]⟩ := by
  have start := Session.Reached.ofVocabulary v
  have usable : ∀ n ∈ [a, b], (Session.start (.ofVocabulary v)).Usable n := by
    intro n hn
    rcases List.mem_pair.1 hn with rfl | rfl
    · exact .leaf ha
    · exact .leaf hb
  have built := start.combine usable joined
  refine built.perform (.setRoots [both]) fun n hn => ?_
  obtain rfl := List.mem_singleton.1 hn
  exact .combined (by decide) list (.inl (List.mem_singleton_self _))

theorem reached : session.Reached :=
  reached_of_built (Vocabulary.encodes_iff.2 ⟨_, codes_equal⟩)
    (Vocabulary.encodes_iff.2 ⟨_, codes_known⟩) combine_eq rfl

theorem usable_equal : session.Usable equal := .leaf (Vocabulary.encodes_iff.2 ⟨_, codes_equal⟩)

theorem usable_known : session.Usable known := .leaf (Vocabulary.encodes_iff.2 ⟨_, codes_known⟩)

theorem usable_unknown : session.Usable known.flip :=
  .leaf (Vocabulary.encodes_iff.2 ⟨_, codes_known.flip⟩)

theorem usable_both : session.Usable both :=
  .combined (by decide) rfl (.inr (.inl (List.mem_singleton_self _)))

/-- The record that knows of `x` everywhere. -/
def record : Record := fun _ => some "x"

/-! ### A node that nests -/

/-- The node of the OR of the two, over the list that the AND has. -/
def either : Node := .combined .or 0

/-- The node of `a = x AND (a = x OR a IS NOT UNKNOWN)`. -/
def nested : Node := .combined .and 1

theorem consolidated (k : Connective) : Consolidated k [equal, known] := by
  constructor <;> cases k <;> decide

/-- The store with the list of the nested node besides. -/
def deepStore : Store := store.push [equal, either] (Store.find?_eq_none (by decide))

theorem combine_again (k : Connective) :
    deepStore.combine k [equal, known] = .ok (.combined k 0, deepStore) :=
  Store.combine_of_consolidated (consolidated k) rfl (by decide)

/-- The session in which the OR and the nested node were built too. -/
def deep : Session :=
  ⟨⟨.ofVocabulary vocabulary, deepStore, [both]⟩, [nested], [either, both]⟩

theorem usable_deep : deep.Usable either ∧ deep.Usable nested ∧ deep.Usable both := by
  refine ⟨.combined (by decide) rfl ?_, .combined (by decide) rfl ?_, .combined (by decide) rfl ?_⟩
  · exact .inr (.inl (List.mem_cons_self))
  · exact .inl (List.mem_singleton_self _)
  · exact .inr (.inl (List.mem_cons_of_mem _ (List.mem_singleton_self _)))

/-- The session in which the OR was built. -/
theorem reached_either : Session.Reached ⟨session.forest, [either], [both]⟩ := by
  have usable : ∀ n ∈ [equal, known], session.Usable n := by
    intro n hn
    rcases List.mem_pair.1 hn with rfl | rfl
    · exact usable_equal
    · exact usable_known
  have again : store.combine .or [equal, known] = .ok (either, store) :=
    Store.combine_of_consolidated (consolidated .or) rfl (by decide)
  exact reached.combine usable again

/-- Sessions in which an AND of the OR and a leaf was built besides. -/
theorem reached_of_nested {a n : Node} {s : Store} (ha : vocabulary.Encodes a)
    (joined : store.combine .and [a, either] = .ok (n, s)) :
    Session.Reached ⟨⟨.ofVocabulary vocabulary, s, [both]⟩, [n], [either, both]⟩ := by
  refine reached_either.combine (fun m hm => ?_) joined
  rcases List.mem_pair.1 hm with rfl | rfl
  · exact .leaf ha
  · exact .combined (by decide) rfl (.inl (List.mem_singleton_self _))

theorem reached_deep : deep.Reached :=
  reached_of_nested (Vocabulary.encodes_iff.2 ⟨_, codes_equal⟩)
    (Store.combine_of_new (by rfl) (by decide) (by decide) (by decide))

end Sample

end Criteria
