import Criteria.Proofs.Coding

/-!
# Translators remember the truth

What a translator remembers is what its vocabulary says (`Translator.Faithful`), so it is of no
importance whether an answer comes from a memo. Asking and answering keeps this, as long as codes
that are to be decoded are those of leaves: a code with stray bits would be remembered as the node
of the leaf that it is read as.

A vocabulary that *continues* another has all words of it under their old numbers. Codes then mean
what they did, and a translator that goes on with it stays faithful.
-/

namespace Criteria

/-! ## Vocabularies that go on -/

namespace WordList

variable {l l' : WordList} {w : String} {i : Nat}

theorem word?_push (new : l.number? w = none) {u : String} (h : l.word? i = some u) :
    (l.push w new).word? i = some u := by
  show (l.words.push w)[i]? = some u
  have lt : i < l.words.size := (Array.getElem?_eq_some_iff.1 h).1
  rw [Array.getElem?_push_lt lt]
  exact (Array.getElem?_eq_getElem lt).symm.trans h

theorem word?_of_continues (h : l'.continues l = true) {u : String} (hu : l.word? i = some u) :
    l'.word? i = some u := by
  unfold continues at h
  rw [← Array.isPrefixOf_toList, List.isPrefixOf_iff_prefix] at h
  unfold word? at *
  rw [← Array.getElem?_toList] at *
  obtain ⟨rest, eq⟩ := h
  rw [← eq, List.getElem?_append_left (List.getElem?_eq_some_iff.1 hu).1]
  exact hu

end WordList

namespace Vocabulary

variable {v v' v'' : Vocabulary} {l : Leaf} {n : Node}

/-- All words of `v` have the same number in `v'`. -/
structure Within (v v' : Vocabulary) : Prop where
  names : ∀ {i w}, v.names.word? i = some w → v'.names.word? i = some w
  values : ∀ {i w}, v.values.word? i = some w → v'.values.word? i = some w

theorem Within.refl (v : Vocabulary) : v.Within v := ⟨id, id⟩

theorem Within.trans (h : v.Within v') (h' : v'.Within v'') : v.Within v'' :=
  ⟨fun hw => h'.names (h.names hw), fun hw => h'.values (h.values hw)⟩

theorem addName_of_new {w : String} (new : v.names.number? w = none)
    (room : v.names.size < WordKind.names.capacity) :
    v.addName w = .ok { v with
      names := v.names.push w new
      names_le := by rw [WordList.size_push]; exact room } := by
  unfold addName
  split
  · next found =>
    rw [new] at found
    cases found
  · rw [dif_pos room]

theorem addValue_of_new {w : String} (new : v.values.number? w = none)
    (room : v.values.size < WordKind.values.capacity) :
    v.addValue w = .ok { v with
      values := v.values.push w new
      values_le := by rw [WordList.size_push]; exact room } := by
  unfold addValue
  split
  · next found =>
    rw [new] at found
    cases found
  · rw [dif_pos room]

theorem within_addName {w : String} (h : v.addName w = .ok v') : v.Within v' := by
  unfold addName at h
  split at h
  · cases h
    exact .refl v
  next new =>
  split at h
  · cases h
    exact ⟨WordList.word?_push new, id⟩
  · cases h

theorem within_addValue {w : String} (h : v.addValue w = .ok v') : v.Within v' := by
  unfold addValue at h
  split at h
  · cases h
    exact .refl v
  next new =>
  split at h
  · cases h
    exact ⟨id, WordList.word?_push new⟩
  · cases h

theorem within_add {names values : List String} (h : v.add names values = .ok v') :
    v.Within v' := by
  unfold add at h
  obtain ⟨u, hu, h⟩ := bind_eq_ok_iff.1 h
  have first : v.Within u :=
    of_foldlM (fun _ _ _ hb hf => hb.trans (within_addName hf)) hu (.refl v)
  exact of_foldlM (fun _ _ _ hb hf => hb.trans (within_addValue hf)) h first

theorem within_of_continues (h : v'.continues v = true) : v.Within v' := by
  rw [continues, Bool.and_eq_true] at h
  exact ⟨WordList.word?_of_continues h.1, WordList.word?_of_continues h.2⟩

/-- Merging keeps the numbers of all words. -/
theorem within_merge (h : v.merge v' = .ok v'') : v.Within v'' := by
  unfold merge at h
  split at h
  · cases h
    exact .refl v
  · exact within_add h

namespace Within

theorem codes (h : v.Within v') (code : v.Codes l n) : v'.Codes l n := by
  cases code with
  | check name => exact .check (h.names name)
  | value op name value => exact .value op (h.names name) (h.values value)
  | reference op name other => exact .reference op (h.names name) (h.names other)

theorem encodes (h : v.Within v') (code : v.Encodes n) : v'.Encodes n := by
  obtain ⟨l, code⟩ := encodes_iff.1 code
  exact encodes_iff.2 ⟨l, h.codes code⟩

theorem holds_eq (h : v.Within v') (code : v.Encodes n) (r : Record) :
    v'.holds r n = v.holds r n := by
  obtain ⟨l, code⟩ := encodes_iff.1 code
  rw [code.holds, (h.codes code).holds]

end Within

end Vocabulary

/-! ## Memos -/

namespace Memo

variable {κ υ : Type} [BEq κ] [Hashable κ] {m : Memo κ υ} {key : κ}

theorem ask_fst : (m.ask key).1 = m.results[key]? := by
  obtain ⟨results, hits, misses⟩ := m
  simp only [ask]
  cases results[key]? <;> rfl

theorem results_ask : (m.ask key).2.results = m.results := by
  obtain ⟨results, hits, misses⟩ := m
  simp only [ask]
  cases results[key]? <;> rfl

end Memo

namespace Translator

variable {t : Translator} {l : Leaf} {n : Node}

/-! ## Remembering -/

theorem Faithful.remember (h : t.Faithful) (hn : t.vocabulary.encodeLeaf l = .ok n) :
    (t.remember l n).Faithful where
  encoded l' n' found := by
    change (t.encoded.results.insert l n)[l']? = some n' at found
    rw [Std.HashMap.getElem?_insert] at found
    split at found
    · next same =>
      cases found
      rw [beq_iff_eq] at same
      exact same ▸ hn
    · exact h.encoded l' n' found
  decoded n' l' found := by
    change (t.decoded.results.insert n l)[n']? = some l' at found
    rw [Std.HashMap.getElem?_insert] at found
    split at found
    · next same =>
      cases found
      rw [beq_iff_eq] at same
      exact same ▸ hn
    · exact h.decoded n' l' found

/-- Translators grow by what they remember, and fail with some faults at most. -/
def growth (fails : Fault → Prop) : Growth Fault Translator where
  valid := Faithful
  le t u := u.vocabulary = t.vocabulary
  fails fault _ := fails fault
  refl _ := rfl
  trans h h' := h'.trans h

/-- Counting questions changes nothing that is remembered. -/
theorem Faithful.of_results {u : Translator} (h : t.Faithful) (hv : u.vocabulary = t.vocabulary)
    (he : u.encoded.results = t.encoded.results) (hd : u.decoded.results = t.decoded.results) :
    u.Faithful where
  encoded l n found := by
    rw [hv]
    exact h.encoded l n (he ▸ found)
  decoded n l found := by
    rw [hv]
    exact h.decoded n l (hd ▸ found)

/-! ## Translating -/

theorem ensures_encodeLeaf :
    (growth fun _ => True).Ensures (encodeLeaf l) t fun n t => t.vocabulary.Codes l n := by
  intro h
  obtain ⟨v, encoded, decoded⟩ := t
  simp only [encodeLeaf]
  have found : (encoded.ask l).1 = encoded.results[l]? := Memo.ask_fst
  have same : (encoded.ask l).2.results = encoded.results := Memo.results_ask
  have faithful : Faithful ⟨v, (encoded.ask l).2, decoded⟩ := h.of_results rfl same rfl
  generalize encoded.ask l = answer at *
  obtain ⟨result, asked⟩ := answer
  cases result with
  | some n => exact ⟨faithful, rfl, Vocabulary.codes_of_encodeLeaf (h.encoded l n found.symm)⟩
  | none =>
    simp only
    cases hn : v.encodeLeaf l with
    | ok n => exact ⟨faithful.remember hn, rfl, Vocabulary.codes_of_encodeLeaf hn⟩
    | error fault => exact ⟨faithful, rfl, trivial⟩

/-- The code of a leaf is always translated back. -/
theorem ensures_decodeLeaf {fails : Fault → Prop} (code : t.vocabulary.Encodes n) :
    (growth fails).Ensures (decodeLeaf n) t fun l t => t.vocabulary.Codes l n := by
  intro h
  obtain ⟨v, encoded, decoded⟩ := t
  obtain ⟨l, code⟩ := Vocabulary.encodes_iff.1 code
  simp only [decodeLeaf, code.leafOperator]
  have found : (decoded.ask n).1 = decoded.results[n]? := Memo.ask_fst
  have same : (decoded.ask n).2.results = decoded.results := Memo.results_ask
  have faithful : Faithful ⟨v, encoded, (decoded.ask n).2⟩ := h.of_results rfl rfl same
  generalize decoded.ask n = answer at *
  obtain ⟨result, asked⟩ := answer
  cases result with
  | some l => exact ⟨faithful, rfl, Vocabulary.codes_of_encodeLeaf (h.decoded n l found.symm)⟩
  | none =>
    simp only [show v.decodeLeaf n = .ok l from code.decodeLeaf]
    exact ⟨faithful.remember code.encodeLeaf, rfl, code⟩

/-- A leaf whose words are there is always translated. -/
theorem encodeLeaf_of_codes (h : t.Faithful) (code : t.vocabulary.Codes l n) :
    ∃ u, encodeLeaf l t = .ok n u ∧ u.Faithful ∧ u.vocabulary = t.vocabulary := by
  cases run : encodeLeaf l t with
  | ok n' u =>
    obtain ⟨faithful, same, code'⟩ := ensures_encodeLeaf.of_ok h run
    rw [show u.vocabulary = t.vocabulary from same] at code'
    have eq := code'.encodeLeaf.symm.trans code.encodeLeaf
    cases eq
    exact ⟨u, rfl, faithful, same⟩
  | error fault u =>
    obtain ⟨v, encoded, decoded⟩ := t
    simp only [encodeLeaf, show v.encodeLeaf l = .ok n from code.encodeLeaf] at run
    split at run <;> cases run

theorem decodeLeaf_of_codes (h : t.Faithful) (code : t.vocabulary.Codes l n) :
    ∃ u, decodeLeaf n t = .ok l u ∧ u.Faithful ∧ u.vocabulary = t.vocabulary := by
  have decoded : (growth fun _ => False).Ensures (decodeLeaf n) t
      fun l t => t.vocabulary.Codes l n := ensures_decodeLeaf (Vocabulary.encodes_iff.2 ⟨l, code⟩)
  obtain ⟨l', u, run, faithful, same, code'⟩ := decoded.exists_ok h fun _ _ => id
  rw [show u.vocabulary = t.vocabulary from same] at code'
  have eq := code'.decodeLeaf.symm.trans code.decodeLeaf
  cases eq
  exact ⟨u, run, faithful, same⟩

/-- Translators are merged just if their vocabularies are. -/
theorem merge_cases (t other : Translator) :
    (∃ u, t.merge other = .ok u ∧ t.vocabulary.merge other.vocabulary = .ok u.vocabulary) ∨
      ∃ fault, t.merge other = .error fault ∧
        t.vocabulary.merge other.vocabulary = .error fault := by
  unfold merge
  cases t.vocabulary.merge other.vocabulary with
  | ok v => exact .inl ⟨{ t with vocabulary := v }, rfl, rfl⟩
  | error fault => exact .inr ⟨fault, rfl, rfl⟩

/-- What is remembered stays true as the vocabulary goes on. -/
theorem Faithful.merge {other u : Translator} (h : t.Faithful) (eq : t.merge other = .ok u) :
    u.Faithful ∧ t.vocabulary.Within u.vocabulary := by
  unfold Translator.merge at eq
  obtain ⟨v, hv, eq⟩ := bind_eq_ok_iff.1 eq
  cases eq
  have within := Vocabulary.within_merge hv
  have goOn : ∀ {l : Leaf} {n : Node}, t.vocabulary.encodeLeaf l = .ok n →
      v.encodeLeaf l = .ok n := fun h => (within.codes (Vocabulary.codes_of_encodeLeaf h)).encodeLeaf
  exact ⟨⟨fun l n found => goOn (h.encoded l n found), fun n l found => goOn (h.decoded n l found)⟩,
    within⟩

end Translator

namespace Growth.Ensures

theorem ofExcept {ε σ α : Type} {g : Growth ε σ} {x : Except ε α} {s : σ} {Q : α → σ → Prop}
    (h : g.valid s → ∃ a, x = .ok a ∧ Q a s) : g.Ensures (Criteria.ofExcept x) s Q := by
  refine .assuming fun hs => ?_
  obtain ⟨a, rfl, hQ⟩ := h hs
  exact .pure fun _ => hQ

end Growth.Ensures

end Criteria
