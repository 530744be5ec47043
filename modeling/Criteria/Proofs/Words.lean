import Mathlib.Data.Finset.Card
import Criteria.Proofs.Translation

/-!
# Room for words

The words of a list are different, so a list has as many numbers as words (`WordList.card_set`), and
whether some words can be added depends on the set of all words alone: adding is refused just if
there are more of them than the capacity (`Vocabulary.Adds.foldlM_cases`). So two vocabularies are
merged just if the words of both together fit.

**Theorem (`Vocabulary.merge_cases`).** A merged vocabulary has the words of both and no others, or
there are too many names in both together, or else too many values.
-/

namespace Criteria

/-! ## Sets of words -/

namespace WordList

variable {l l' : WordList} {w : String} {i : Nat}

/-- The words, without their numbers. -/
def set (l : WordList) : Finset String := l.words.toList.toFinset

theorem mem_set : w ∈ l.set ↔ ∃ i, l.word? i = some w := by
  rw [set, List.mem_toFinset, List.mem_iff_getElem?]
  simp only [Array.getElem?_toList]
  rfl

theorem not_mem_set (new : l.number? w = none) : w ∉ l.set := by
  rw [mem_set]
  rintro ⟨i, found⟩
  rw [← number?_eq_some_iff, new] at found
  cases found

theorem set_push (new : l.number? w = none) : (l.push w new).set = insert w l.set := by
  show (l.words.push w).toList.toFinset = insert w l.words.toList.toFinset
  rw [Array.toList_push, List.toFinset_append, Finset.union_comm]
  rfl

/-- There are as many words as numbers. -/
theorem card_set (l : WordList) : l.set.card = l.size := by
  rw [set, List.toFinset_card_of_nodup, Array.length_toList]
  · rfl
  · rw [List.nodup_iff_getElem?_ne_getElem?]
    intro i j lt hj eq
    simp only [Array.getElem?_toList] at eq
    rw [Array.length_toList] at hj
    have hj : l.words[j]? = some l.words[j] := Array.getElem?_eq_getElem hj
    have hi : l.words[i]? = some l.words[j] := eq.trans hj
    rw [← l.index_eq] at hi hj
    rw [hi] at hj
    exact Nat.ne_of_lt lt (Option.some.inj hj)

end WordList

namespace Vocabulary

variable {v v' w : Vocabulary} {kind : WordKind} {words rest : Vocabulary → WordList}
  {add : Vocabulary → String → Except Fault Vocabulary} {ws : List String}

/-! ## Adding words -/

/-- A way to add words of one kind, each of them as long as there is room, that leaves the words of
the other kind as they are. -/
structure Adds (kind : WordKind) (words rest : Vocabulary → WordList)
    (add : Vocabulary → String → Except Fault Vocabulary) : Prop where
  size_le : ∀ v, (words v).size ≤ kind.capacity
  of_found : ∀ {v w i}, (words v).number? w = some i → add v w = .ok v
  of_new : ∀ {v w} (new : (words v).number? w = none), (words v).size < kind.capacity →
    ∃ v', add v w = .ok v' ∧ words v' = (words v).push w new ∧ rest v' = rest v
  of_full : ∀ {v w}, (words v).number? w = none → ¬ (words v).size < kind.capacity →
    add v w = .error (.vocabularyFull kind)

theorem adds_names : Adds .names (·.names) (·.values) addName where
  size_le v := v.names_le
  of_found found := by
    unfold addName
    split
    · rfl
    · next new =>
      rw [found] at new
      cases new
  of_new new room := ⟨_, addName_of_new new room, rfl, rfl⟩
  of_full new full := by
    unfold addName
    split
    · next found =>
      rw [new] at found
      cases found
    · rw [dif_neg full]

theorem adds_values : Adds .values (·.values) (·.names) addValue where
  size_le v := v.values_le
  of_found found := by
    unfold addValue
    split
    · rfl
    · next new =>
      rw [found] at new
      cases new
  of_new new room := ⟨_, addValue_of_new new room, rfl, rfl⟩
  of_full new full := by
    unfold addValue
    split
    · next found =>
      rw [new] at found
      cases found
    · rw [dif_neg full]

/-- Words are all added, unless there is no room for as many as there are then. -/
theorem Adds.foldlM_cases (h : Adds kind words rest add) (v : Vocabulary) (ws : List String) :
    (kind.capacity < ((words v).set ∪ ws.toFinset).card ∧
      ws.foldlM add v = .error (.vocabularyFull kind)) ∨
    (((words v).set ∪ ws.toFinset).card ≤ kind.capacity ∧
      ∃ v', ws.foldlM add v = .ok v' ∧ (words v').set = (words v).set ∪ ws.toFinset ∧
        rest v' = rest v) := by
  induction ws generalizing v with
  | nil =>
    rw [List.toFinset_nil, Finset.union_empty, WordList.card_set]
    exact .inr ⟨h.size_le v, v, rfl, rfl, rfl⟩
  | cons w ws ih =>
    rw [List.foldlM_cons, List.toFinset_cons, Finset.union_insert, ← Finset.insert_union]
    cases number : (words v).number? w with
    | some i =>
      have there : w ∈ (words v).set :=
        WordList.mem_set.2 ⟨i, (WordList.number?_eq_some_iff _ _ _).1 number⟩
      rw [h.of_found number, Finset.insert_eq_of_mem there]
      exact ih v
    | none =>
      by_cases room : (words v).size < kind.capacity
      · obtain ⟨u, added, eq, same⟩ := h.of_new number room
        have set : (words u).set = insert w (words v).set := by rw [eq, WordList.set_push]
        rw [added, ← set, ← same]
        exact ih u
      · have many : kind.capacity < (insert w (words v).set).card := by
          rw [Finset.card_insert_of_notMem (WordList.not_mem_set number), WordList.card_set]
          omega
        have sub : insert w (words v).set ⊆ insert w (words v).set ∪ ws.toFinset :=
          Finset.subset_union_left
        have le := Finset.card_le_card sub
        refine .inl ⟨Nat.lt_of_lt_of_le many le, ?_⟩
        rw [h.of_full number room]
        rfl

/-- What adding names and then values comes to. -/
theorem add_cases (v : Vocabulary) (names values : List String) :
    (WordKind.names.capacity < (v.names.set ∪ names.toFinset).card ∧
      v.add names values = .error (.vocabularyFull .names)) ∨
    ((v.names.set ∪ names.toFinset).card ≤ WordKind.names.capacity ∧
      WordKind.values.capacity < (v.values.set ∪ values.toFinset).card ∧
      v.add names values = .error (.vocabularyFull .values)) ∨
    ((v.names.set ∪ names.toFinset).card ≤ WordKind.names.capacity ∧
      (v.values.set ∪ values.toFinset).card ≤ WordKind.values.capacity ∧
      ∃ v', v.add names values = .ok v' ∧ v'.names.set = v.names.set ∪ names.toFinset ∧
        v'.values.set = v.values.set ∪ values.toFinset) := by
  unfold add
  rcases adds_names.foldlM_cases v names with ⟨full, run⟩ | ⟨fits, u, run, set, same⟩
  · rw [run]
    exact .inl ⟨full, rfl⟩
  right
  rw [run]
  have values := adds_values.foldlM_cases u values
  rw [same] at values
  rcases values with ⟨full, run'⟩ | ⟨fits', v', run', set', same'⟩
  · exact .inl ⟨fits, full, run'⟩
  · refine .inr ⟨fits, fits', v', run', ?_, set'⟩
    rw [same', set]

/-! ## Merging -/

theorem set_subset_of_within (h : v.Within v') :
    v.names.set ⊆ v'.names.set ∧ v.values.set ⊆ v'.values.set := by
  constructor
  · intro name hn
    obtain ⟨i, found⟩ := WordList.mem_set.1 hn
    exact WordList.mem_set.2 ⟨i, h.names found⟩
  · intro value hv
    obtain ⟨i, found⟩ := WordList.mem_set.1 hv
    exact WordList.mem_set.2 ⟨i, h.values found⟩

/-- A merged vocabulary has the words of both and no others, or there are too many names in both
together, or else too many values. -/
theorem merge_cases (v w : Vocabulary) :
    (WordKind.names.capacity < (v.names.set ∪ w.names.set).card ∧
      v.merge w = .error (.vocabularyFull .names)) ∨
    ((v.names.set ∪ w.names.set).card ≤ WordKind.names.capacity ∧
      WordKind.values.capacity < (v.values.set ∪ w.values.set).card ∧
      v.merge w = .error (.vocabularyFull .values)) ∨
    ((v.names.set ∪ w.names.set).card ≤ WordKind.names.capacity ∧
      (v.values.set ∪ w.values.set).card ≤ WordKind.values.capacity ∧
      ∃ u, v.merge w = .ok u ∧ u.names.set = v.names.set ∪ w.names.set ∧
        u.values.set = v.values.set ∪ w.values.set) := by
  unfold merge
  by_cases goesOn : v.continues w = true
  · rw [if_pos goesOn]
    obtain ⟨names, values⟩ := set_subset_of_within (within_of_continues goesOn)
    rw [Finset.union_eq_left.2 names, Finset.union_eq_left.2 values, WordList.card_set,
      WordList.card_set]
    exact .inr (.inr ⟨v.names_le, v.values_le, v, rfl, rfl, rfl⟩)
  · rw [if_neg goesOn]
    exact add_cases v w.names.words.toList w.values.words.toList

theorem set_of_merge {u : Vocabulary} (h : v.merge w = .ok u) :
    u.names.set = v.names.set ∪ w.names.set ∧ u.values.set = v.values.set ∪ w.values.set := by
  rcases merge_cases v w with ⟨-, run⟩ | ⟨-, -, run⟩ | ⟨-, -, u', run, sets⟩
  · cases h.symm.trans run
  · cases h.symm.trans run
  · cases h.symm.trans run
    exact sets

/-- A vocabulary that has all words of another under their numbers goes on with it. -/
theorem continues_of_within (h : v.Within v') : v'.continues v = true := by
  have goesOn : ∀ {l l' : WordList}, (∀ {i w}, l.word? i = some w → l'.word? i = some w) →
      l'.continues l = true := by
    intro l l' keeps
    rw [WordList.continues, ← Array.isPrefixOf_toList, List.isPrefixOf_iff_prefix,
      List.prefix_iff_getElem?]
    intro i lt
    rw [Array.getElem?_toList]
    refine keeps ?_
    rw [WordList.word?, ← Array.getElem?_toList, List.getElem?_eq_getElem lt]
  rw [continues, goesOn h.names, goesOn h.values]
  rfl

end Vocabulary

end Criteria
