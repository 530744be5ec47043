import Criteria.Proofs.Session
import Criteria.Proofs.Words

/-!
# Vocabularies under merging

**Theorem (`vocabulary_laws`).** Words and numbers are in bijection. Two vocabularies are merged
just if the words of both together fit, and then the words of the first keep their numbers, the
result has the words of both and no others, and it is the same to add the words of the second one
by one.
Merging is associative, and to have all words of another under their numbers is a partial order in
which a merged vocabulary is above the first of the two.

What a vocabulary becomes when words are added depends on the words alone, as long as there is room
(`Adds.words_of_foldlM`): a word that is there changes nothing and another one comes last
(`WordList.put`). So the laws are laws of word lists, for which there is always room. To put the
words of a list that was itself put together is to put its parts one after the other
(`WordList.putAll_putAll`), since a word that was left out of it for being there is there, too,
where its words are put.
-/

namespace Criteria

/-! ## Putting words -/

namespace WordList

variable {l l' m : WordList} {w : String} {i : Nat} {ws : List String}

/-- The words with `w` among them, last if it was not there. -/
def put (l : WordList) (w : String) : WordList :=
  match new : l.number? w with
  | some _ => l
  | none => l.push w new

/-- The words with all of `ws` among them. -/
def putAll (l : WordList) (ws : List String) : WordList := ws.foldl put l

theorem put_of_found (found : l.number? w = some i) : l.put w = l := by
  unfold put
  split
  · rfl
  · next new =>
    rw [found] at new
    cases new

theorem put_of_new (new : l.number? w = none) : l.put w = l.push w new := by
  unfold put
  split
  · next found =>
    rw [new] at found
    cases found
  · rfl

theorem exists_number?_iff : (∃ i, l.number? w = some i) ↔ w ∈ l.set := by
  rw [mem_set]
  exact exists_congr fun i => l.number?_eq_some_iff w i

theorem set_put : (l.put w).set = insert w l.set := by
  cases number : l.number? w with
  | some i => rw [put_of_found number, Finset.insert_eq_of_mem (exists_number?_iff.1 ⟨i, number⟩)]
  | none => rw [put_of_new number, set_push]

theorem set_putAll : (l.putAll ws).set = l.set ∪ ws.toFinset := by
  induction ws generalizing l with
  | nil => rw [List.toFinset_nil, Finset.union_empty]; rfl
  | cons w ws ih =>
    show ((l.put w).putAll ws).set = _
    rw [ih, set_put, List.toFinset_cons, Finset.insert_union, Finset.union_insert]

theorem putAll_append {ws' : List String} : l.putAll (ws ++ ws') = (l.putAll ws).putAll ws' :=
  List.foldl_append

/-- To put the words of a list that words were put to is to put first its own and then those. -/
theorem putAll_putAll :
    l.putAll (m.putAll ws).words.toList = (l.putAll m.words.toList).putAll ws := by
  induction ws generalizing m with
  | nil => rfl
  | cons w ws ih =>
    show l.putAll ((m.put w).putAll ws).words.toList = ((l.putAll m.words.toList).put w).putAll ws
    rw [ih]
    cases number : m.number? w with
    | some i =>
      -- A word of `m` is among those that were put.
      have there : w ∈ (l.putAll m.words.toList).set := by
        rw [set_putAll, Finset.mem_union]
        exact .inr (exists_number?_iff.1 ⟨i, number⟩)
      obtain ⟨j, found⟩ := exists_number?_iff.2 there
      rw [put_of_found number, put_of_found found]
    | none =>
      have last : (m.put w).words.toList = m.words.toList ++ [w] := by
        rw [put_of_new number]
        exact Array.toList_push
      rw [last, putAll_append]
      rfl

theorem words_eq_of_forall (h : ∀ i w, l.word? i = some w ↔ m.word? i = some w) :
    l.words = m.words := by
  apply Array.ext_getElem?
  intro i
  exact Option.ext fun w => h i w

theorem lt_size_iff : i < l.size ↔ ∃ w, l.word? i = some w := by
  constructor
  · exact fun lt => ⟨l.words[i], Array.getElem?_eq_getElem lt⟩
  · rintro ⟨w, found⟩
    exact (Array.getElem?_eq_some_iff.1 found).1

end WordList

namespace Vocabulary

variable {u v w x : Vocabulary} {kind : WordKind} {words rest : Vocabulary → WordList}
  {add : Vocabulary → String → Except Fault Vocabulary} {ws : List String}

/-! ## Adding words -/

/-- Words that are added are put, whatever room is left. -/
theorem Adds.words_of_foldlM (h : Adds kind words rest add) (run : ws.foldlM add v = .ok u) :
    words u = (words v).putAll ws ∧ rest u = rest v := by
  induction ws generalizing v with
  | nil =>
    cases run
    exact ⟨rfl, rfl⟩
  | cons w ws ih =>
    rw [List.foldlM_cons, bind_eq_ok_iff] at run
    obtain ⟨v', added, run⟩ := run
    obtain ⟨put, same⟩ := ih run
    have first : words v' = (words v).put w ∧ rest v' = rest v := by
      cases number : (words v).number? w with
      | some i =>
        rw [h.of_found number] at added
        cases added
        exact ⟨(WordList.put_of_found number).symm, rfl⟩
      | none =>
        by_cases room : (words v).size < kind.capacity
        · obtain ⟨v'', added', eq, same'⟩ := h.of_new number room
          rw [added'] at added
          cases added
          exact ⟨eq.trans (WordList.put_of_new number).symm, same'⟩
        · rw [h.of_full number room] at added
          cases added
    rw [put, same, first.1, first.2]
    exact ⟨rfl, rfl⟩

/-- Words that are there need not be added. -/
theorem Adds.foldlM_of_subset (h : Adds kind words rest add) (there : ∀ w ∈ ws, w ∈ (words v).set) :
    ws.foldlM add v = .ok v := by
  induction ws with
  | nil => rfl
  | cons w ws ih =>
    rw [List.forall_mem_cons] at there
    obtain ⟨i, found⟩ := WordList.exists_number?_iff.2 there.1
    rw [List.foldlM_cons, h.of_found found]
    exact ih there.2

theorem ext_words (names : u.names = v.names) (values : u.values = v.values) : u = v := by
  obtain ⟨_, _, _, _⟩ := u
  obtain ⟨_, _, _, _⟩ := v
  cases names
  cases values
  rfl

theorem words_of_add {names values : List String} (run : v.add names values = .ok u) :
    u.names = v.names.putAll names ∧ u.values = v.values.putAll values := by
  unfold Vocabulary.add at run
  obtain ⟨v', named, run⟩ := bind_eq_ok_iff.1 run
  obtain ⟨names, same⟩ := adds_names.words_of_foldlM named
  obtain ⟨values, same'⟩ := adds_values.words_of_foldlM run
  exact ⟨same'.trans names, by rw [values, same]⟩

/-! ## Merging -/

theorem mem_words_iff {l : WordList} {s : String} : s ∈ l.words.toList ↔ s ∈ l.set := by
  rw [WordList.set, List.mem_toFinset]

/-- A vocabulary that goes on with another is what adding the words of the other makes of it. -/
theorem merge_eq_add (v w : Vocabulary) :
    v.merge w = v.add w.names.words.toList w.values.words.toList := by
  unfold merge
  split
  · next goesOn =>
    obtain ⟨names, values⟩ := set_subset_of_within (within_of_continues goesOn)
    have named : w.names.words.toList.foldlM addName v = .ok v :=
      adds_names.foldlM_of_subset fun s hs => names (mem_words_iff.1 hs)
    have valued : w.values.words.toList.foldlM addValue v = .ok v :=
      adds_values.foldlM_of_subset fun s hs => values (mem_words_iff.1 hs)
    unfold Vocabulary.add
    rw [named]
    exact valued.symm
  · rfl

theorem words_of_merge (run : v.merge w = .ok u) :
    u.names = v.names.putAll w.names.words.toList ∧
      u.values = v.values.putAll w.values.words.toList :=
  words_of_add (merge_eq_add v w ▸ run)

/-- Whether a vocabulary can have some names and values. -/
def Room (names values : Finset String) : Prop :=
  names.card ≤ WordKind.names.capacity ∧ values.card ≤ WordKind.values.capacity

theorem Room.mono {names names' values values' : Finset String} (h : Room names values)
    (sub : names' ⊆ names) (sub' : values' ⊆ values) : Room names' values' :=
  ⟨Nat.le_trans (Finset.card_le_card sub) h.1, Nat.le_trans (Finset.card_le_card sub') h.2⟩

/-- Vocabularies are merged just if the words of both together fit. -/
theorem exists_merge_iff : (∃ u, v.merge w = .ok u) ↔
    Room (v.names.set ∪ w.names.set) (v.values.set ∪ w.values.set) := by
  rcases merge_cases v w with ⟨full, run⟩ | ⟨-, full, run⟩ | ⟨names, values, u, run, -⟩
  · rw [run]
    exact ⟨by rintro ⟨_, ⟨⟩⟩, fun room => absurd room.1 (Nat.not_le.2 full)⟩
  · rw [run]
    exact ⟨by rintro ⟨_, ⟨⟩⟩, fun room => absurd room.2 (Nat.not_le.2 full)⟩
  · exact ⟨fun _ => ⟨names, values⟩, fun _ => ⟨u, run⟩⟩

/-- What can be merged from one side can be merged from the other. -/
theorem exists_merge_comm : (∃ u, v.merge w = .ok u) ↔ ∃ u, w.merge v = .ok u := by
  rw [exists_merge_iff, exists_merge_iff, Finset.union_comm, Finset.union_comm v.values.set]

theorem exists_bind_iff {f : Vocabulary → Except Fault Vocabulary} {r : Except Fault Vocabulary} :
    (∃ y, (r >>= f) = .ok y) ↔ ∃ u, r = .ok u ∧ ∃ y, f u = .ok y := by
  constructor
  · rintro ⟨y, run⟩
    obtain ⟨u, first, second⟩ := bind_eq_ok_iff.1 run
    exact ⟨u, first, y, second⟩
  · rintro ⟨u, first, y, second⟩
    exact ⟨y, bind_eq_ok_iff.2 ⟨u, first, second⟩⟩

/-- Three vocabularies that are merged from the left fit together, and the other way round. -/
theorem exists_merge_left_iff : (∃ y, (do (← v.merge w).merge x) = Except.ok y) ↔
    Room (v.names.set ∪ w.names.set ∪ x.names.set)
      (v.values.set ∪ w.values.set ∪ x.values.set) := by
  rw [exists_bind_iff]
  constructor
  · rintro ⟨u, first, second⟩
    obtain ⟨names, values⟩ := set_of_merge first
    rw [← names, ← values]
    exact exists_merge_iff.1 second
  · intro room
    obtain ⟨u, first⟩ := exists_merge_iff.2
      (room.mono Finset.subset_union_left Finset.subset_union_left)
    obtain ⟨names, values⟩ := set_of_merge first
    rw [← names, ← values] at room
    exact ⟨u, first, exists_merge_iff.2 room⟩

theorem exists_merge_right_iff : (∃ y, (do v.merge (← w.merge x)) = Except.ok y) ↔
    Room (v.names.set ∪ w.names.set ∪ x.names.set)
      (v.values.set ∪ w.values.set ∪ x.values.set) := by
  have sides : (∃ y, (do v.merge (← w.merge x)) = Except.ok y) ↔
      ∃ y, (do (← w.merge x).merge v) = Except.ok y := by
    rw [exists_bind_iff, exists_bind_iff]
    exact exists_congr fun u => and_congr_right fun _ => exists_merge_comm
  rw [sides, exists_merge_left_iff, Finset.union_comm _ v.names.set,
    Finset.union_comm _ v.values.set, Finset.union_assoc, Finset.union_assoc]

/-- Three vocabularies merged from the left and from the right are the same. -/
theorem merge_merge_eq {y z : Vocabulary} (left : (do (← v.merge w).merge x) = Except.ok y)
    (right : (do v.merge (← w.merge x)) = Except.ok z) : y = z := by
  obtain ⟨vw, first, second⟩ := bind_eq_ok_iff.1 left
  obtain ⟨wx, first', second'⟩ := bind_eq_ok_iff.1 right
  obtain ⟨names₁, values₁⟩ := words_of_merge first
  obtain ⟨names₂, values₂⟩ := words_of_merge second
  obtain ⟨names₃, values₃⟩ := words_of_merge first'
  obtain ⟨names₄, values₄⟩ := words_of_merge second'
  apply ext_words
  · rw [names₂, names₁, names₄, names₃, WordList.putAll_putAll]
  · rw [values₂, values₁, values₄, values₃, WordList.putAll_putAll]

theorem merge_assoc_iff (y : Vocabulary) : (do (← v.merge w).merge x) = Except.ok y ↔
    (do v.merge (← w.merge x)) = Except.ok y := by
  constructor
  · intro left
    obtain ⟨z, right⟩ := exists_merge_right_iff.2 (exists_merge_left_iff.1 ⟨y, left⟩)
    rwa [merge_merge_eq left right]
  · intro right
    obtain ⟨z, left⟩ := exists_merge_left_iff.2 (exists_merge_right_iff.1 ⟨y, right⟩)
    rwa [← merge_merge_eq left right]

/-! ## The order by words -/

theorem continues_iff : v.continues w = true ↔ w.Within v :=
  ⟨within_of_continues, continues_of_within⟩

/-- Vocabularies that go on with each other have the same words under the same numbers. -/
theorem words_eq_of_continues (h : v.continues w = true) (h' : w.continues v = true) :
    v.names.words = w.names.words ∧ v.values.words = w.values.words := by
  have h := within_of_continues h
  have h' := within_of_continues h'
  exact ⟨WordList.words_eq_of_forall fun i s => ⟨h'.names, h.names⟩,
    WordList.words_eq_of_forall fun i s => ⟨h'.values, h.values⟩⟩

end Vocabulary

/-! ## The laws -/

/-- Words and the numbers below `size` are in bijection, and there are no more than `capacity`. -/
structure WordList.Numbered (l : WordList) (capacity : Nat) : Prop where
  word?_eq_some_iff : ∀ i w, l.word? i = some w ↔ l.number? w = some i
  lt_size_iff : ∀ i, i < l.size ↔ ∃ w, l.word? i = some w
  size_le : l.size ≤ capacity

/-- A vocabulary that is made of two: it keeps the numbers of the first and has the words of both
and no others. -/
structure Vocabulary.Joined (v w u : Vocabulary) : Prop where
  keeps_names : ∀ s i, v.names.number? s = some i → u.names.number? s = some i
  keeps_values : ∀ s i, v.values.number? s = some i → u.values.number? s = some i
  names_eq : u.names.set = v.names.set ∪ w.names.set
  values_eq : u.values.set = v.values.set ∪ w.values.set
  continues : u.continues v = true

theorem Vocabulary.joined_of_merge {u v w : Vocabulary} (run : v.merge w = .ok u) :
    v.Joined w u := by
  have within := within_merge run
  obtain ⟨names, values⟩ := set_of_merge run
  refine ⟨fun s i found => ?_, fun s i found => ?_, names, values, continues_of_within within⟩
  · rw [WordList.number?_eq_some_iff] at *
    exact within.names found
  · rw [WordList.number?_eq_some_iff] at *
    exact within.values found

/-- Words and numbers are in bijection; vocabularies are merged just if the words of both fit, into
one that keeps the numbers of the first and is the same as with the words of the second added one
by one; merging is associative; and going on with another is a partial order by words. -/
theorem vocabulary_laws (v w x : Vocabulary) :
    (v.names.Numbered 4096 ∧ v.values.Numbered 16384) ∧
    ((∃ u, v.merge w = .ok u) ↔
      (v.names.set ∪ w.names.set).card ≤ 4096 ∧ (v.values.set ∪ w.values.set).card ≤ 16384) ∧
    (∀ u, v.merge w = .ok u → v.Joined w u) ∧
    v.merge w = v.add w.names.words.toList w.values.words.toList ∧
    (∀ y, (do (← v.merge w).merge x) = Except.ok y ↔ (do v.merge (← w.merge x)) = Except.ok y) ∧
    v.continues v = true ∧
    (v.continues w = true → w.continues v = true →
      v.names.words = w.names.words ∧ v.values.words = w.values.words) ∧
    (v.continues w = true → w.continues x = true → v.continues x = true) := by
  have numbered : ∀ (l : WordList) (capacity : Nat), l.size ≤ capacity → l.Numbered capacity :=
    fun l _ le => ⟨fun i s => (l.number?_eq_some_iff s i).symm, fun _ => WordList.lt_size_iff, le⟩
  refine ⟨⟨numbered _ _ v.names_le, numbered _ _ v.values_le⟩, Vocabulary.exists_merge_iff,
    fun u => Vocabulary.joined_of_merge, Vocabulary.merge_eq_add v w, Vocabulary.merge_assoc_iff,
    ?refl, Vocabulary.words_eq_of_continues, ?trans⟩
  case refl => exact Vocabulary.continues_of_within (.refl v)
  case trans =>
    intro h h'
    rw [Vocabulary.continues_iff] at *
    exact h'.trans h

/-! ## A sample -/

namespace Sample

/-- The vocabulary of the names `b` and `a` and the value `y`. -/
def otherVocabulary : Vocabulary where
  names := (WordList.empty.put "b").put "a"
  values := WordList.empty.put "y"
  names_le := by
    rw [← WordList.card_set, WordList.set_put, WordList.set_put]
    decide
  values_le := by
    rw [← WordList.card_set, WordList.set_put]
    decide

theorem set_otherNames : otherVocabulary.names.set = {"a", "b"} := by
  show ((WordList.empty.put "b").put "a").set = _
  rw [WordList.set_put, WordList.set_put]
  rfl

theorem exists_merge : ∃ u, vocabulary.merge otherVocabulary = .ok u := by
  have values : otherVocabulary.values.set = {"y"} := by
    show (WordList.empty.put "y").set = _
    rw [WordList.set_put]
    rfl
  refine Vocabulary.exists_merge_iff.2 ?_
  rw [Vocabulary.Room, set_otherNames, values]
  decide

/-- The vocabularies fit together, and the number of `a` in the first is kept. -/
theorem vocabulary_joined : ∃ u, vocabulary.merge otherVocabulary = .ok u ∧
    vocabulary.Joined otherVocabulary u ∧ u.names.number? "a" = some 0 := by
  obtain ⟨-, -, joined, -⟩ := vocabulary_laws vocabulary otherVocabulary vocabulary
  obtain ⟨u, run⟩ := exists_merge
  have found : vocabulary.names.number? "a" = some 0 :=
    (WordList.number?_eq_some_iff _ _ _).2 rfl
  exact ⟨u, run, joined u run, (joined u run).keeps_names _ _ found⟩

end Sample

end Criteria
