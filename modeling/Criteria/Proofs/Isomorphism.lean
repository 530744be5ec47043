import Criteria.Proofs.Recall

/-!
# Merged forests are copies

**Theorem (`Session.Reached.merge_isomorphic`).** A merged forest has the roots of the first, as
they are, and one root for each of the second, which is read back as the expression that it was, up
to the order of members. The nodes of the first keep their members and their expressions, and taking
one of them over changes nothing. Merging fails only if there are too many words in both
vocabularies together or all numbers are issued.

That a copy is what it should be follows from its shape (`merge_shape`): nodes of the same shape
spell the same up to order. A node of the first forest has its members in the merged one, where they
are taken over as they are, so joining them finds the list that they have (`Recoding.carries_self`).
That leaf codes are taken over as they are needs the words of the first forest under their numbers,
which is how the vocabularies were merged.

The second forest is left as if some of its leaves had been read back one after another
(`Session.Reached.reads_takeOver`, `Session.Reached.reads_mergeWith`), so it is still one that is
reached.
-/

namespace Criteria

/-! ## Leaves under merged vocabularies -/

namespace Vocabulary

variable {v w : Vocabulary} {l : Leaf} {n : Node}

theorem Codes.covers (h : v.Codes l n) : v.Covers l.comparison := by
  cases h with
  | check name =>
    refine ⟨fun x hx => ?_, fun w hw => by cases hw⟩
    obtain rfl := List.mem_singleton.1 hx
    exact ⟨_, name⟩
  | value _ name value =>
    refine ⟨fun x hx => ?_, fun w hw => ?_⟩
    · obtain rfl := List.mem_singleton.1 hx
      exact ⟨_, name⟩
    · cases hw
      exact ⟨_, value⟩
  | reference _ name other =>
    refine ⟨fun x hx => ?_, fun w hw => by cases hw⟩
    rcases List.mem_pair.1 hx with rfl | rfl
    · exact ⟨_, name⟩
    · exact ⟨_, other⟩

/-- A vocabulary with all words of another has codes for all leaves of it. -/
theorem includes_of_subset (names : w.names.set ⊆ v.names.set)
    (values : w.values.set ⊆ v.values.set) : v.Includes w := by
  intro l n code
  refine codes_of_covers code.isWellFormed ⟨fun name hn => ?_, fun x hx => ?_⟩
  · exact WordList.mem_set.1 (names (WordList.mem_set.2 (code.covers.names name hn)))
  · exact WordList.mem_set.1 (values (WordList.mem_set.2 (code.covers.values x hx)))

theorem includes_of_merge {u : Vocabulary} (h : v.merge w = .ok u) : u.Includes w := by
  obtain ⟨names, values⟩ := set_of_merge h
  apply includes_of_subset
  · rw [names]
    exact Finset.subset_union_right
  · rw [values]
    exact Finset.subset_union_right

end Vocabulary

namespace Forest

variable {f g m other : Forest} {n n' : Node} {x : Recoding} {fault : Fault}

/-! ## Nodes of the first forest -/

theorem members_eq (keeps : ∀ {id l}, f.store.list? id = some l → g.store.list? id = some l)
    (hn : f.ValidNode n) : g.store.members n = f.store.members n := by
  cases comb : n.isCombined with
  | true =>
    obtain ⟨k, hk⟩ := Node.exists_connective? comb
    obtain ⟨l, hl, -⟩ := hn.list? hk
    rw [Store.members_eq_ok hk hl, Store.members_eq_ok hk (keeps hl)]
  | false =>
    -- What fails, the same for all stores, is to tell the number of the list.
    have fails : ∃ fault, n.listNumber = .error fault := by
      rw [Node.listNumber, comb]
      split
      · exact ⟨_, rfl⟩
      · exact ⟨_, rfl⟩
    obtain ⟨fault, number⟩ := fails
    rw [Store.members, Store.members, number]
    rfl

/-- A valid node spells the same where the lists and the words are kept. -/
theorem spell_of_within (hf : f.Valid) (within : f.vocabulary.Within g.vocabulary)
    (le : f.store.Extends g.store) (hn : f.ValidNode n) : g.spell n = f.spell n := by
  refine Store.fold_of_list? (g := f.vocabulary.spelling) hf.store (fun n code => ?_) le.list? hn
  obtain ⟨l, code⟩ := Vocabulary.encodes_iff.1 code
  show g.vocabulary.spellLeaf n = f.vocabulary.spellLeaf n
  rw [code.spellLeaf, (within.codes code).spellLeaf]

/-- Nothing is read or added, and nodes are taken over as they are. -/
def Recoding.still (f m : Forest) : Growth Fault Recoding where
  valid x := x.forest = m ∧ x.source = f.translator ∧
    ∀ n n' : Node, x.known[n]? = some n' → n' = n
  le _ _ := True
  fails _ _ := False
  refl _ := trivial
  trans _ _ := trivial

theorem Recoding.valid_still (f m : Forest) : (still f m).valid (start m f) :=
  ⟨rfl, rfl, fun n n' found => by simp [start] at found⟩

/-- Where words and lists are there already, nodes are taken over as they are. -/
theorem Recoding.carries_self (hm : m.Valid) (within : f.vocabulary.Within m.vocabulary)
    (le : f.store.Extends m.store) :
    Carries f (still f m) fun n n' _ => n' = n where
  stable _ _ _ _ _ _ same := same
  constant _ := rfl
  found hx found := hx.2.2 _ _ found
  note {n n' x} same := by
    rintro ⟨forest, source, known⟩
    exact ⟨⟨forest, source, forall_insert known same⟩, trivial, trivial⟩
  combine {n k ms ms' x} hn hk list same := by
    obtain rfl : ms = ms' := List.forall₂_eq_eq_eq ▸ same.imp fun _ _ eq => eq.symm
    rintro ⟨rfl, source, known⟩
    -- The members have their list in `m`, so joining them gives the node.
    have valid : x.forest.ValidNode n := (hn.within within).mono le
    have again := Store.combine_eq_self hm.store valid hk (le.list? list)
    have run : Build.combine k ms x.forest.store = .ok n x.forest.store := by
      rw [Build.combine, again]
    rw [Recoding.work_of_ok (build_eq_ok run)]
    exact ⟨⟨rfl, source, known⟩, trivial, rfl⟩
  leaf {n x} _ := by
    rintro ⟨rfl, source, known⟩
    have goesOn := Vocabulary.continues_of_within within
    rw [show f.vocabulary = x.source.vocabulary from congrArg _ source.symm] at goesOn
    rw [recodeLeaf_of_continues goesOn]
    exact ⟨⟨rfl, source, known⟩, trivial, rfl⟩

theorem recode_self (hf : f.Valid) (hm : m.Valid) (within : f.vocabulary.Within m.vocabulary)
    (le : f.store.Extends m.store) (hn : f.ValidNode n) : recode f n m = .ok n m := by
  obtain ⟨n', x, run, ⟨same, -⟩, -, rfl⟩ :=
    ((Recoding.carries_self hm within le).ensures_recodeWithin hf hn
      hn.level_lt_nesting).exists_ok (Recoding.valid_still f m) fun _ _ => id
  rw [recode_eq, run]
  simp only [same]

/-! ## Copies -/

/-- `n` is read back from `f` and `n'` from `g`, as expressions that differ at most in the order of
members. -/
def IsCopy (f : Forest) (n : Node) (g : Forest) (n' : Node) : Prop :=
  ∃ e e' t t', express n f = .ok e { f with translator := t } ∧
    express n' g = .ok e' { g with translator := t' } ∧ e.Rearranged e'

theorem isCopy_of_has (ho : other.Valid) (hn : other.ValidNode n) (hg : g.Valid)
    (h : g.Has n' (other.shape n)) : other.IsCopy n g n' := by
  obtain ⟨t, run, -⟩ := exists_express ho hn
  obtain ⟨t', run', -⟩ := exists_express hg h.valid
  exact ⟨_, _, t, t', run, run',
    Store.rearranged_of_shape_eq ho.store hg.store hn h.valid h.shape_eq.symm⟩

/-! ## What merging fails with -/

/-- The faults of merging: too many words in both together, or a number is asked for when all of
them are issued. -/
inductive MergeFails (f other : Forest) : Fault → Prop
  | names : WordKind.names.capacity <
      (f.vocabulary.names.set ∪ other.vocabulary.names.set).card →
      MergeFails f other (.vocabularyFull .names)
  | values : WordKind.values.capacity <
      (f.vocabulary.values.set ∪ other.vocabulary.values.set).card →
      MergeFails f other (.vocabularyFull .values)
  | numbers {t : Translator} {id : Nat} {x : Recoding} :
      f.translator.merge other.translator = .ok t →
      other.roots.mapM (recodeWithin other other.nesting)
          (.start { f with translator := t } other) = .error (.numberTooLarge id) x →
      Node.maxNumber < x.forest.store.size → MergeFails f other (.numberTooLarge id)

theorem mergeFails_of_merge (hf : f.Valid) (ho : other.Valid) (h : f.merge other = .error fault) :
    f.MergeFails other fault := by
  rcases Translator.merge_cases f.translator other.translator with
    ⟨t, ht, -⟩ | ⟨fault', ht, words⟩
  · obtain ⟨start, vocabulary⟩ := hf.merged ht
    rw [merge_of_merged ht] at h
    split at h
    · cases h
    · next fault' x run =>
      cases h
      obtain ⟨-, le, fails⟩ :=
        ((Recoding.carries_shape ho).ensures_recodeAll ho ho.roots).of_error
          (Recoding.valid_start start ho) run
      obtain ⟨⟨id, rfl⟩, full⟩ := fails (by
        rw [le.vocabulary_eq]
        exact Vocabulary.includes_of_merge vocabulary)
      exact .numbers ht run full
  · rw [merge_of_error ht] at h
    cases h
    rcases Vocabulary.merge_cases f.vocabulary other.vocabulary with
      ⟨many, run⟩ | ⟨-, many, run⟩ | ⟨-, -, u, run, -⟩
    · cases words.symm.trans run
      exact .names many
    · cases words.symm.trans run
      exact .values many
    · cases words.symm.trans run

/-- A node of the second forest is taken over again unless all numbers are issued. -/
theorem recode_of_includes (hg : g.Valid) (ho : other.Valid) (hn : other.ValidNode n)
    (includes : g.vocabulary.Includes other.vocabulary) :
    match recode other n g with
    | .ok n' g' => other.IsCopy n g' n'
    | .error fault g' => ∃ id, fault = .numberTooLarge id ∧ Node.maxNumber < g'.store.size := by
  have taken := (Recoding.carries_shape ho).ensures_recodeWithin (x := .start g other) ho hn
    hn.level_lt_nesting (Recoding.valid_start hg ho)
  rw [recode_eq]
  cases run : recodeWithin other other.nesting n (.start g other) with
  | ok n' x =>
    rw [run] at taken
    obtain ⟨⟨hx, -, -⟩, -, has⟩ := taken
    exact isCopy_of_has ho hn hx has
  | error fault x =>
    rw [run] at taken
    obtain ⟨-, le, fails⟩ := taken
    obtain ⟨⟨id, eq⟩, full⟩ := fails (by
      rw [le.vocabulary_eq]
      exact includes)
    exact ⟨id, eq, full⟩

end Forest

/-! ## The forest that is read -/

/-- What a session becomes when some of its nodes are read. -/
inductive Session.Reads (y : Session) : Session → Prop
  | refl : Reads y y
  | express {z : Session} {n : Node} : Reads y z → z.Usable n →
      Reads y (z.next (Request.perform z.forest (.express n)))

theorem Session.Reads.reached {y z : Session} (hy : y.Reached) (h : y.Reads z) : z.Reached := by
  induction h with
  | refl => exact hy
  | express _ usable ih => exact ih.perform _ fun n hn => List.mem_singleton.1 hn ▸ usable

namespace Forest

/-- Taking over, seen from the translator that reads: it remembers what it would if some nodes of
`y` were read. -/
def Recoding.lending (y : Session) : Growth Fault Recoding where
  valid x := x.source.Speaks y.forest.vocabulary ∧
    ∃ z, y.Reads z ∧ z.forest = { y.forest with translator := x.source }
  le _ _ := True
  fails _ _ := True
  refl _ := trivial
  trans _ _ := trivial

variable {y : Session}

theorem Recoding.valid_lending (hy : y.Reached) (f : Forest) :
    (lending y).valid (start f y.forest) :=
  ⟨⟨hy.sound.forest.translator, rfl⟩, y, .refl, rfl⟩

theorem Recoding.ensures_work_lending (a : Attempt Forest Node) :
    (lending y).Ensures (work a) x fun _ _ => True :=
  ensures_work_of_frame (fun hx => ⟨hx, trivial⟩) (fun _ _ => trivial) a trivial

/-- To take over a leaf is to read it, if anything. -/
theorem Recoding.ensures_leaf_lending (code : y.forest.vocabulary.Encodes n) :
    (lending y).Ensures (recodeLeaf n) x fun _ _ => True := by
  rintro ⟨speaks, z, reads, same⟩
  by_cases goesOn : x.forest.vocabulary.continues x.source.vocabulary = true
  · rw [recodeLeaf_of_continues goesOn]
    exact ⟨⟨speaks, z, reads, same⟩, trivial, trivial⟩
  obtain ⟨l, codes⟩ := Vocabulary.encodes_iff.1 code
  obtain ⟨t, run, speaks'⟩ := speaks.decodeLeaf codes
  have usable : z.Usable n := by
    refine .leaf ?_
    rw [same, show Forest.vocabulary { y.forest with translator := x.source } = y.forest.vocabulary
      from speaks.vocabulary_eq]
    exact code
  have left : (z.next (Request.perform z.forest (.express n))).forest =
      { y.forest with translator := t } := by
    have read := express_of_decodeLeaf (f := { y.forest with translator := x.source })
      codes.isLeaf run
    simp only [Session.next, Request.perform, same, read]
    rfl
  rw [recodeLeaf_of_read goesOn run]
  exact ensures_work_lending _ ⟨speaks', _, .express reads usable, left⟩

theorem Recoding.carries_lending (y : Session) :
    Carries y.forest (lending y) fun _ _ _ => True where
  stable _ _ _ _ _ _ _ := trivial
  constant _ := trivial
  found _ _ := trivial
  note _ hx := ⟨hx, trivial, trivial⟩
  combine _ _ _ _ := ensures_work_lending _
  leaf code := ensures_leaf_lending code

end Forest

/-! ## In a session -/

namespace Session

variable {x y : Session} {n : Node}

/-- The forest that a node is taken over from is left as if some of its nodes had been read. -/
theorem Reached.reads_takeOver (hy : y.Reached) (hn : y.Usable n) (f : Forest) :
    ∃ z, y.Reads z ∧ z.forest = (after (Forest.takeOver n) (f, y.forest)).2 := by
  have valid := hy.sound.validNode hn
  have taken := (Forest.Recoding.carries_lending y).ensures_recodeWithin
    (x := .start f y.forest) hy.sound.forest valid valid.level_lt_nesting
    (Forest.Recoding.valid_lending hy f)
  simp only [after, Forest.takeOver]
  cases run : Forest.recodeWithin y.forest y.forest.nesting n (.start f y.forest) with
  | ok n' u =>
    rw [run] at taken
    exact taken.1.2
  | error fault u =>
    rw [run] at taken
    exact taken.1.2

/-- So is the forest whose roots are taken over into a merged one. -/
theorem Reached.reads_mergeWith (hy : y.Reached) (f : Forest) :
    ∃ z, y.Reads z ∧ z.forest = after f.mergeWith y.forest := by
  have ho := hy.sound.forest
  unfold after Forest.mergeWith
  cases f.translator.merge y.forest.translator with
  | error fault => exact ⟨y, .refl, rfl⟩
  | ok t =>
    have taken := (Forest.Recoding.carries_lending y).ensures_recodeAll ho ho.roots
      (Forest.Recoding.valid_lending hy { f with translator := t })
    simp only
    cases run : y.forest.roots.mapM (Forest.recodeWithin y.forest y.forest.nesting)
        (.start { f with translator := t } y.forest) with
    | ok ns u =>
      rw [run] at taken
      exact taken.1.2
    | error fault u =>
      rw [run] at taken
      exact taken.1.2

/-- A merged forest has the roots of the first and copies of the roots of the second, it keeps the
nodes of the first, and it takes over those of the second. Merging fails with too many words or when
all numbers are issued. -/
theorem Reached.merge_isomorphic (hx : x.Reached) (hy : y.Reached) :
    match x.forest.merge y.forest with
    | .ok m =>
      (∃ ns, m.roots = x.forest.roots ++ ns ∧
        List.Forall₂ (fun n n' => y.forest.IsCopy n m n') y.forest.roots ns) ∧
      (∀ n, x.Usable n → m.store.members n = x.forest.store.members n ∧
        (∃ e t t', Forest.express n x.forest = .ok e { x.forest with translator := t } ∧
          Forest.express n m = .ok e { m with translator := t' }) ∧
        Forest.recode x.forest n m = .ok n m) ∧
      ∀ n, y.Usable n → match Forest.recode y.forest n m with
        | .ok n' f => y.forest.IsCopy n f n'
        | .error fault f => ∃ id, fault = .numberTooLarge id ∧ Node.maxNumber < f.store.size
    | .error fault => x.forest.MergeFails y.forest fault := by
  have hf := hx.sound.forest
  have ho := hy.sound.forest
  cases merged : x.forest.merge y.forest with
  | error fault => exact Forest.mergeFails_of_merge hf ho merged
  | ok m =>
    obtain ⟨hm, vocabulary, le, ns, roots, each⟩ := Forest.merge_shape hf ho merged
    have within := Vocabulary.within_merge vocabulary
    refine ⟨⟨ns, roots, ?_⟩, fun n hn => ?_, fun n hn => ?_⟩
    · exact forall₂_imp_of_mem each fun n hn n' has =>
        Forest.isCopy_of_has ho (ho.roots n hn) hm has
    · have valid := hx.sound.validNode hn
      obtain ⟨t, run, -⟩ := Forest.exists_express hf valid
      obtain ⟨t', run', -⟩ := Forest.exists_express hm ((valid.within within).mono le)
      rw [Forest.spell_of_within hf within le valid] at run'
      exact ⟨Forest.members_eq le.list? valid, ⟨_, t, t', run, run'⟩,
        Forest.recode_self hf hm within le valid⟩
    · exact Forest.recode_of_includes hm ho (hy.sound.validNode hn)
        (Vocabulary.includes_of_merge vocabulary)

end Session

/-! ## A sample -/

namespace Sample

/-- The vocabulary of the name `b` and the value `y`. -/
def foreign : Vocabulary where
  names := WordList.empty.push "b" (by simp [WordList.number?, WordList.empty])
  values := WordList.empty.push "y" (by simp [WordList.number?, WordList.empty])
  names_le := by rw [WordList.size_push]; decide
  values_le := by rw [WordList.size_push]; decide

theorem new_name : vocabulary.names.number? "b" = none := by
  simp [vocabulary, WordList.number?, WordList.empty, WordList.push]

theorem new_value : vocabulary.values.number? "y" = none := by
  simp [vocabulary, WordList.number?, WordList.empty, WordList.push]

/-- The words of the two vocabularies, which have none in common. -/
def united : Vocabulary where
  names := vocabulary.names.push "b" new_name
  values := vocabulary.values.push "y" new_value
  names_le := by rw [WordList.size_push]; decide
  values_le := by rw [WordList.size_push]; decide

theorem apart : vocabulary.continues foreign = false := by decide +kernel

theorem apart_united : united.continues foreign = false := by decide +kernel

theorem merge_foreign : vocabulary.merge foreign = .ok united := by
  let named : Vocabulary :=
    { united with values := vocabulary.values, values_le := vocabulary.values_le }
  have new : named.values.number? "y" = none := new_value
  rw [Vocabulary.merge, if_neg (Bool.eq_false_iff.1 apart)]
  refine bind_eq_ok_iff.2 ⟨named, ?_, ?_⟩
  · show ["b"].foldlM Vocabulary.addName vocabulary = _
    rw [List.foldlM_cons, Vocabulary.addName_of_new new_name (by decide)]
    rfl
  · show ["y"].foldlM Vocabulary.addValue named = _
    rw [List.foldlM_cons, Vocabulary.addValue_of_new new (by show 1 < 16384; decide)]
    rfl

/-- The leaf `b = y`. -/
def otherEqual : Leaf := ⟨false, "b", .equals, some (.value "y")⟩

/-- The leaf `b IS NOT UNKNOWN`. -/
def otherKnown : Leaf := ⟨true, "b", .isUnknown, none⟩

/-- The node of `b = y` among the words of both. -/
def movedEqual : Node := .leaf false .equals false 1 1

/-- The node of `b IS NOT UNKNOWN` among the words of both. -/
def movedKnown : Node := .leaf true .isUnknown false 1 0

/-- The session in which `b = y AND b IS NOT UNKNOWN` is the root. Its codes and its list are those
that `a = x AND a IS NOT UNKNOWN` has over the other words. -/
def otherSession : Session := ⟨⟨.ofVocabulary foreign, store, [both]⟩, [], [both]⟩

theorem codes_otherEqual : foreign.Codes otherEqual equal := .value (by decide) rfl rfl

theorem codes_otherKnown : foreign.Codes otherKnown known := .check rfl

theorem codes_movedEqual : united.Codes otherEqual movedEqual := .value (by decide) rfl rfl

theorem codes_movedKnown : united.Codes otherKnown movedKnown := .check rfl

theorem reached_other : otherSession.Reached :=
  reached_of_built (Vocabulary.encodes_iff.2 ⟨_, codes_otherEqual⟩)
    (Vocabulary.encodes_iff.2 ⟨_, codes_otherKnown⟩) combine_eq rfl

/-- The store with the list that the other AND needs besides. -/
def unitedStore : Store := store.push [movedKnown, movedEqual] (Store.find?_eq_none (by decide))

theorem combine_moved : store.combine .and [movedEqual, movedKnown] =
    .ok (.combined .and 1, unitedStore) :=
  Store.combine_of_new (by rfl) (by decide) (by decide) (by decide)

theorem translators_merged :
    session.forest.translator.merge otherSession.forest.translator = .ok (.ofVocabulary united) :=
  bind_eq_ok_iff.2 ⟨united, merge_foreign, rfl⟩

/-- The first forest over the words of both, before it takes over the other AND. -/
def united₀ : Forest.Recoding :=
  .start ⟨.ofVocabulary united, store, [both]⟩ otherSession.forest

/-- What became of the leaves of the other AND. -/
def movedLeaves : Std.HashMap Node Node :=
  (united₀.known.insert equal movedEqual).insert known movedKnown

/-- The leaves of the other AND are coded anew. -/
theorem recode_leaves : ∃ t u,
    [equal, known].mapM (Forest.recodeWithin otherSession.forest 2) united₀ =
      .ok [movedEqual, movedKnown] ⟨⟨t, store, [both]⟩, u, movedLeaves⟩ := by
  obtain ⟨t, u, first, faithful, words, speaks⟩ :=
    Forest.exists_recodeWithin_leaf otherSession.forest 1 (x := united₀)
      (Translator.faithful_ofVocabulary united) ⟨Translator.faithful_ofVocabulary foreign, rfl⟩
      apart_united codes_otherEqual codes_movedEqual Std.HashMap.getElem?_empty
  have words : t.vocabulary = united := words
  have new : (united₀.known.insert equal movedEqual)[known]? = none := by
    rw [Std.HashMap.getElem?_insert, if_neg (by decide)]
    exact Std.HashMap.getElem?_empty
  obtain ⟨t', u', second, -⟩ :=
    Forest.exists_recodeWithin_leaf otherSession.forest 1
      (x := ⟨⟨t, store, [both]⟩, u, united₀.known.insert equal movedEqual⟩) faithful speaks
      ((congrArg (·.continues foreign) words).trans apart_united) codes_otherKnown
      (words.symm ▸ codes_movedKnown : t.vocabulary.Codes otherKnown movedKnown) new
  exact ⟨t', u', mapM_cons_of_ok first (mapM_cons_of_ok second rfl)⟩

/-- The other AND is taken over with a list of its own. -/
theorem merge_other : ∃ t, session.forest.merge otherSession.forest =
    .ok ⟨t, unitedStore, [both, .combined .and 1]⟩ := by
  obtain ⟨t, u, leaves⟩ := recode_leaves
  have taken : Forest.recodeWithin otherSession.forest 3 both united₀ =
      .ok (.combined .and 1)
        ⟨⟨t, unitedStore, [both]⟩, u, movedLeaves.insert both (.combined .and 1)⟩ :=
    Forest.recodeWithin_combined (y := ⟨⟨t, store, [both]⟩, u, movedLeaves⟩) rfl rfl
      Std.HashMap.getElem?_empty leaves combine_moved
  have roots : [both].mapM (Forest.recodeWithin otherSession.forest 3) united₀ =
      .ok [.combined .and 1] _ :=
    mapM_cons_of_ok taken rfl
  exact ⟨t, Forest.merge_of_recodeAll (f := session.forest) translators_merged roots⟩

/-- The other AND comes over with its members in the other order, and means what it did. The first
one stays as it is, with the members that it had. -/
theorem both_merged : ∃ m, session.forest.merge otherSession.forest = .ok m ∧
    m.roots = [both, .combined .and 1] ∧
    m.store.members (.combined .and 1) = .ok [movedKnown, movedEqual] ∧
    otherSession.forest.IsCopy both m (.combined .and 1) ∧
    m.store.members both = session.forest.store.members both ∧
    Forest.recode session.forest both m = .ok both m := by
  obtain ⟨t, merged⟩ := merge_other
  have isomorphic := reached.merge_isomorphic reached_other
  rw [merged] at isomorphic
  obtain ⟨⟨ns, roots, copies⟩, kept, -⟩ := isomorphic
  obtain ⟨members, -, again⟩ := kept both usable_both
  have ns_eq : [.combined .and 1] = ns :=
    List.append_cancel_left (show [both] ++ [.combined .and 1] = [both] ++ ns from roots)
  rw [← ns_eq] at copies
  exact ⟨_, merged, rfl, rfl, (List.forall₂_cons.1 copies).1, members, again⟩

end Sample

end Criteria
