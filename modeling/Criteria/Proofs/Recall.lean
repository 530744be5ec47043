import Criteria.Proofs.Numbering
import Criteria.Proofs.Planting

/-!
# A translator's past cannot be seen

**Theorem (`past_is_invisible`).** Whatever a translator was asked for, and whichever others it was
merged with, it answers as one that was asked for nothing. A leaf that was translated once, in
either direction, is answered from the memos ever after, also when the translator is merged with
others. A leaf that was refused for want of a word leaves no trace, and is translated as soon as its
words are there.

The memos hold what the vocabulary says (`Translator.Faithful`), as the two directions are inverse
to each other on the codes that a vocabulary gives out. So an entry that is there is never replaced
by another one (`Translator.Recalls.remember`), and merging, which keeps the codes of leaves, keeps
it.
-/

namespace Criteria

/-! ## Answers and states -/

section Outcomes

variable {ε σ α β : Type}

/-- What a computation answers, or the reason why it does not. -/
def outcome (x : EStateM ε σ α) (s : σ) : Except ε α :=
  match x s with
  | .ok a _ => .ok a
  | .error e _ => .error e

/-- The state that a computation leaves behind. -/
def after (x : EStateM ε σ α) (s : σ) : σ :=
  match x s with
  | .ok _ t => t
  | .error _ t => t

/-- To put an answer into another form changes nothing else. -/
theorem outcome_bind_pure (x : EStateM ε σ α) (f : α → β) (s : σ) :
    outcome (do return f (← x)) s = (outcome x s).map f := by
  unfold outcome
  cases run : x s with
  | ok a t => rw [bind_eq_of_ok run]; rfl
  | error e t => rw [bind_eq_of_error run]; rfl

theorem after_bind_pure (x : EStateM ε σ α) (f : α → β) (s : σ) :
    after (do return f (← x)) s = after x s := by
  unfold after
  cases run : x s with
  | ok a t => rw [bind_eq_of_ok run]; rfl
  | error e t => rw [bind_eq_of_error run]

end Outcomes

/-- A valid node is read back as what it spells. -/
theorem Forest.outcome_express {f : Forest} {n : Node} (hf : f.Valid) (hn : f.ValidNode n) :
    outcome (express n) f = .ok (f.spell n) := by
  obtain ⟨t, run, -⟩ := exists_express hf hn
  rw [outcome, run]

/-! ## Codes that are given out -/

/-- The codes that a vocabulary gives out: those of constants and leaves, their negations, and the
unknown checks of their arguments. -/
inductive Vocabulary.Gives (v : Vocabulary) : Node → Prop
  | constant (c : Constant) : v.Gives (.ofConstant c)
  | leaf {l : Leaf} {n : Node} : v.encodeLeaf l = .ok n → v.Gives n
  | negate {n m : Node} : v.Gives n → n.negate = .ok m → v.Gives m
  | argument {n m : Node} : v.Gives n → n.unknownOfArgument = .ok m → v.Gives m
  | reference {n m : Node} : v.Gives n → n.unknownOfReference = .ok m → v.Gives m

theorem Vocabulary.encodes_of_leafOperator {v : Vocabulary} {n : Node} {op : Operator}
    (h : n.isConstant = true ∨ v.Encodes n) (hop : n.leafOperator = .ok op) : v.Encodes n := by
  refine h.resolve_left fun constant => ?_
  rw [Node.not_isConstant_of_isLeaf (Node.isLeaf_of_leafOperator hop)] at constant
  cases constant

/-- All of them are constants or codes of leaves. -/
theorem Vocabulary.Gives.encodes {v : Vocabulary} {n : Node} (h : v.Gives n) :
    n.isConstant = true ∨ v.Encodes n := by
  induction h with
  | constant c =>
    cases c with
    | all => exact .inl rfl
    | none => exact .inl rfl
  | leaf code => exact .inr ⟨_, code⟩
  | @negate n m _ negated ih =>
    rcases ih with constant | code
    · rcases Node.isConstant_iff.1 constant with rfl | rfl
      · cases negated
        exact .inl rfl
      · cases negated
        exact .inl rfl
    · rw [Node.negate_of_isLeaf code.isLeaf] at negated
      cases negated
      exact .inr code.flip
  | @argument n m _ asked ih =>
    obtain ⟨op, hop, -⟩ := bind_eq_ok_iff.1 asked
    have code := encodes_of_leafOperator ih hop
    rw [Store.unknownOfArgument_of_encodes code] at asked
    cases asked
    obtain ⟨name, word⟩ := code.word_argument
    exact .inr (v.encodes_unknownOf word fun _ => none).1
  | @reference n m _ asked ih =>
    obtain ⟨op, hop, refers⟩ := bind_eq_ok_iff.1 asked
    have code := encodes_of_leafOperator ih hop
    have ref : n.hasReference = true := by
      rw [← Bool.not_eq_false]
      intro no
      rw [no, Bool.not_false, Bool.or_true] at refers
      cases refers
    rw [Store.unknownOfReference_of_encodes code ref] at asked
    cases asked
    obtain ⟨name, word⟩ := code.word_value ref
    exact .inr (v.encodes_unknownOf word fun _ => none).1

/-! ## One question -/

namespace Memo

variable {κ υ : Type} [BEq κ] [Hashable κ] {m : Memo κ υ} {key : κ}

/-- The memo with one more question answered from it. -/
def hit (m : Memo κ υ) : Memo κ υ := { m with hits := m.hits + 1 }

/-- The memo with one more question not answered from it. -/
def miss (m : Memo κ υ) : Memo κ υ := { m with misses := m.misses + 1 }

theorem ask_of_found {result : υ} (found : m.results[key]? = some result) :
    m.ask key = (some result, m.hit) := by
  obtain ⟨results, hits, misses⟩ := m
  simp only [ask, show results[key]? = some result from found]
  rfl

theorem ask_of_none (absent : m.results[key]? = none) : m.ask key = (none, m.miss) := by
  obtain ⟨results, hits, misses⟩ := m
  simp only [ask, show results[key]? = none from absent]
  rfl

end Memo

namespace Translator

variable {t u w : Translator} {l l' : Leaf} {n n' : Node} {fault : Fault} {v : Vocabulary}

theorem encodeLeaf_of_found (found : t.encoded.results[l]? = some n) :
    encodeLeaf l t = .ok n { t with encoded := t.encoded.hit } := by
  obtain ⟨v, encoded, decoded⟩ := t
  simp only [encodeLeaf, Memo.ask_of_found found]

theorem encodeLeaf_of_none (absent : t.encoded.results[l]? = none) :
    encodeLeaf l t = match t.vocabulary.encodeLeaf l with
      | .ok n => .ok n (remember { t with encoded := t.encoded.miss } l n)
      | .error fault => .error fault { t with encoded := t.encoded.miss } := by
  obtain ⟨v, encoded, decoded⟩ := t
  cases code : v.encodeLeaf l <;> simp only [encodeLeaf, Memo.ask_of_none absent, code]

theorem decodeLeaf_of_fault (h : n.leafOperator = .error fault) :
    decodeLeaf n t = .error fault t := by
  simp only [decodeLeaf, h]

theorem decodeLeaf_of_found {op : Operator} (h : n.leafOperator = .ok op)
    (found : t.decoded.results[n]? = some l) :
    decodeLeaf n t = .ok l { t with decoded := t.decoded.hit } := by
  obtain ⟨v, encoded, decoded⟩ := t
  simp only [decodeLeaf, h, Memo.ask_of_found found]

theorem decodeLeaf_of_none {op : Operator} (h : n.leafOperator = .ok op)
    (absent : t.decoded.results[n]? = none) :
    decodeLeaf n t = match t.vocabulary.decodeLeaf n with
      | .ok l => .ok l (remember { t with decoded := t.decoded.miss } l n)
      | .error fault => .error fault { t with decoded := t.decoded.miss } := by
  obtain ⟨v, encoded, decoded⟩ := t
  cases code : v.decodeLeaf n <;> simp only [decodeLeaf, h, Memo.ask_of_none absent, code]

theorem decode_of_isLeaf (leaf : n.isLeaf = true) :
    decode n = do return .leaf (← decodeLeaf n) := by
  obtain ⟨ne_all, ne_none⟩ := Node.ne_constant_of_isLeaf leaf
  rw [decode, if_neg ne_all, if_neg ne_none]

/-! ## Answers -/

/-- What is true is answered, whether it is remembered or not. -/
theorem outcome_encodeLeaf (ht : t.Faithful) (l : Leaf) :
    outcome (encodeLeaf l) t = t.vocabulary.encodeLeaf l := by
  unfold outcome
  cases found : t.encoded.results[l]? with
  | some n => rw [encodeLeaf_of_found found, ht.encoded l n found]
  | none =>
    rw [encodeLeaf_of_none found]
    cases t.vocabulary.encodeLeaf l <;> rfl

theorem outcome_decodeLeaf (ht : t.Faithful) (n : Node) :
    outcome (decodeLeaf n) t = t.vocabulary.decodeLeaf n := by
  unfold outcome
  cases hop : n.leafOperator with
  | error fault =>
    rw [decodeLeaf_of_fault hop, Vocabulary.decodeLeaf, hop]
    rfl
  | ok op =>
    cases found : t.decoded.results[n]? with
    | some l =>
      have code := Vocabulary.codes_of_encodeLeaf (ht.decoded n l found)
      rw [decodeLeaf_of_found hop found, code.decodeLeaf]
    | none =>
      rw [decodeLeaf_of_none hop found]
      cases t.vocabulary.decodeLeaf n <;> rfl

/-- Two translators with the same words that remember only what is true give the same answers. -/
theorem outcome_encode (ht : t.Faithful) (hu : u.Faithful) (same : t.vocabulary = u.vocabulary)
    (e : Expression) : outcome (encode e) t = outcome (encode e) u := by
  cases e with
  | constant c => rfl
  | leaf l =>
    show outcome (encodeLeaf l) t = outcome (encodeLeaf l) u
    rw [outcome_encodeLeaf ht, outcome_encodeLeaf hu, same]
  | combined k es => rfl

theorem outcome_decode (ht : t.Faithful) (hu : u.Faithful) (same : t.vocabulary = u.vocabulary)
    (n : Node) : outcome (decode n) t = outcome (decode n) u := by
  unfold decode
  split
  · rfl
  split
  · rfl
  · rw [outcome_bind_pure, outcome_bind_pure, outcome_decodeLeaf ht, outcome_decodeLeaf hu, same]

theorem outcome_decode_of_codes (ht : t.Faithful) (code : t.vocabulary.Codes l n) :
    outcome (decode n) t = .ok (.leaf l) := by
  rw [decode_of_isLeaf code.isLeaf, outcome_bind_pure, outcome_decodeLeaf ht, code.decodeLeaf]
  rfl

/-- What reads back as a leaf is the code of it. -/
theorem codes_of_outcome_decode (ht : t.Faithful) (hn : t.vocabulary.Gives n)
    (run : outcome (decode n) t = .ok (.leaf l)) : t.vocabulary.Codes l n := by
  rcases hn.encodes with constant | code
  · rcases Node.isConstant_iff.1 constant with rfl | rfl <;> cases run
  · obtain ⟨l', code⟩ := Vocabulary.encodes_iff.1 code
    rw [outcome_decode_of_codes ht code] at run
    cases run
    exact code

/-! ## What is remembered -/

/-- A translator with the words of `t` that remembers what `t` does, and one leaf more at most. -/
inductive Answered (t : Translator) : Translator → Prop
  | counted {u : Translator} : u.vocabulary = t.vocabulary →
      u.encoded.results = t.encoded.results → u.decoded.results = t.decoded.results →
      t.Answered u
  | remembered {u : Translator} {l : Leaf} {n : Node} : u.vocabulary = t.vocabulary →
      u.encoded.results = t.encoded.results → u.decoded.results = t.decoded.results →
      t.vocabulary.Codes l n → t.Answered (u.remember l n)

theorem Answered.vocabulary_eq (h : t.Answered u) : u.vocabulary = t.vocabulary := by
  cases h with
  | counted same _ _ => exact same
  | remembered same _ _ _ => exact same

theorem answered_encode (t : Translator) (e : Expression) : t.Answered (after (encode e) t) := by
  cases e with
  | constant c => exact .counted rfl rfl rfl
  | combined k es => exact .counted rfl rfl rfl
  | leaf l =>
    show t.Answered (after (encodeLeaf l) t)
    unfold after
    cases found : t.encoded.results[l]? with
    | some n =>
      rw [encodeLeaf_of_found found]
      exact .counted rfl rfl rfl
    | none =>
      rw [encodeLeaf_of_none found]
      cases run : t.vocabulary.encodeLeaf l with
      | ok n => exact .remembered rfl rfl rfl (Vocabulary.codes_of_encodeLeaf run)
      | error fault => exact .counted rfl rfl rfl

/-- The state that reading back a leaf leaves is that of its decoding. -/
theorem after_decode (leaf : n.isLeaf = true) : after (decode n) t = after (decodeLeaf n) t := by
  rw [decode_of_isLeaf leaf, after_bind_pure]

theorem answered_decode (hn : t.vocabulary.Gives n) : t.Answered (after (decode n) t) := by
  rcases hn.encodes with constant | code
  · rcases Node.isConstant_iff.1 constant with rfl | rfl
    · exact .counted rfl rfl rfl
    · exact .counted rfl rfl rfl
  · obtain ⟨l, code⟩ := Vocabulary.encodes_iff.1 code
    rw [after_decode code.isLeaf]
    unfold after
    cases found : t.decoded.results[n]? with
    | some l =>
      rw [decodeLeaf_of_found code.leafOperator found]
      exact .counted rfl rfl rfl
    | none =>
      rw [decodeLeaf_of_none code.leafOperator found, code.decodeLeaf]
      exact .remembered rfl rfl rfl code

/-- A leaf and its code that are remembered in both directions. -/
structure Recalls (t : Translator) (l : Leaf) (n : Node) : Prop where
  encoded : t.encoded.results[l]? = some n
  decoded : t.decoded.results[n]? = some l

theorem Recalls.codes (h : t.Recalls l n) (ht : t.Faithful) : t.vocabulary.Codes l n :=
  Vocabulary.codes_of_encodeLeaf (ht.encoded l n h.encoded)

theorem recalls_remember (t : Translator) (l : Leaf) (n : Node) : (t.remember l n).Recalls l n where
  encoded := Std.HashMap.getElem?_insert_self
  decoded := Std.HashMap.getElem?_insert_self

/-- What is remembered of a leaf is not replaced by anything else that is true. -/
theorem Recalls.remember (h : t.Recalls l n) (ht : t.Faithful) (code : t.vocabulary.Codes l' n') :
    (t.remember l' n').Recalls l n where
  encoded := by
    show (t.encoded.results.insert l' n')[l]? = some n
    rw [Std.HashMap.getElem?_insert]
    split
    · next same =>
      obtain rfl := beq_iff_eq.1 same
      exact congrArg some (code.node_unique (h.codes ht))
    · exact h.encoded
  decoded := by
    show (t.decoded.results.insert n' l')[n]? = some l
    rw [Std.HashMap.getElem?_insert]
    split
    · next same =>
      obtain rfl := beq_iff_eq.1 same
      exact congrArg some (code.leaf_unique (h.codes ht))
    · exact h.decoded

/-- What is remembered in one direction is remembered in the other. -/
def Mirrored (t : Translator) : Prop :=
  ∀ (l : Leaf) (n : Node), t.encoded.results[l]? = some n ↔ t.decoded.results[n]? = some l

theorem mirrored_ofVocabulary (v : Vocabulary) : (ofVocabulary v).Mirrored := fun l n => by
  simp [ofVocabulary, Memo.empty]

theorem Mirrored.remember (h : t.Mirrored) (ht : t.Faithful) (code : t.vocabulary.Codes l n) :
    (t.remember l n).Mirrored := by
  have recalls := recalls_remember t l n
  intro l' n'
  -- The new entry is on both sides, and any other entry of one side was there before.
  constructor
  · intro found
    change (t.encoded.results.insert l n)[l']? = some n' at found
    rw [Std.HashMap.getElem?_insert] at found
    split at found
    · next same =>
      obtain rfl := beq_iff_eq.1 same
      cases found
      exact recalls.decoded
    · exact (Recalls.remember ⟨found, (h l' n').1 found⟩ ht code).decoded
  · intro found
    change (t.decoded.results.insert n l)[n']? = some l' at found
    rw [Std.HashMap.getElem?_insert] at found
    split at found
    · next same =>
      obtain rfl := beq_iff_eq.1 same
      cases found
      exact recalls.encoded
    · exact (Recalls.remember ⟨(h l' n').2 found, found⟩ ht code).encoded

/-- A translator that remembers only what is true, and that in both directions. -/
structure Sound (t : Translator) : Prop where
  faithful : t.Faithful
  mirrored : t.Mirrored

theorem sound_ofVocabulary (v : Vocabulary) : (ofVocabulary v).Sound :=
  ⟨faithful_ofVocabulary v, mirrored_ofVocabulary v⟩

/-- A sound translator that has the words of another under their numbers and recalls what the other
does. -/
structure Keeps (t u : Translator) : Prop where
  sound : u.Sound
  within : t.vocabulary.Within u.vocabulary
  recalls : ∀ l n, t.Recalls l n → u.Recalls l n

theorem Keeps.trans (h : t.Keeps u) (h' : u.Keeps w) : t.Keeps w :=
  ⟨h'.sound, h.within.trans h'.within, fun l n recalls => h'.recalls l n (h.recalls l n recalls)⟩

theorem Answered.keeps (h : t.Answered u) (ht : t.Sound) : t.Keeps u := by
  -- Counting questions leaves all results as they are.
  have counted : ∀ {u : Translator}, u.vocabulary = t.vocabulary →
      u.encoded.results = t.encoded.results → u.decoded.results = t.decoded.results →
      t.Keeps u := fun {u} same encoded decoded =>
    ⟨⟨ht.faithful.of_results same encoded decoded, by simpa [Mirrored, encoded, decoded] using
      ht.mirrored⟩, same ▸ .refl _, fun l n recalls =>
      ⟨encoded ▸ recalls.encoded, decoded ▸ recalls.decoded⟩⟩
  cases h with
  | counted same encoded decoded => exact counted same encoded decoded
  | @remembered u l' n' same encoded decoded code =>
    have keeps := counted same encoded decoded
    rw [← same] at code
    refine keeps.trans ⟨⟨keeps.sound.faithful.remember code.encodeLeaf, ?_⟩, .refl _, ?_⟩
    · exact keeps.sound.mirrored.remember keeps.sound.faithful code
    · exact fun l n recalls => recalls.remember keeps.sound.faithful code

theorem keeps_merge {other : Translator} (ht : t.Sound) (run : t.merge other = .ok u) :
    t.Keeps u := by
  obtain ⟨faithful, within⟩ := ht.faithful.merge run
  obtain ⟨v, -, eq⟩ := bind_eq_ok_iff.1 run
  cases eq
  exact ⟨⟨faithful, ht.mirrored⟩, within, fun l n recalls => ⟨recalls.encoded, recalls.decoded⟩⟩

/-! ## The past of a translator -/

/-- A translator leads to those that it becomes by translating in either direction and by being
merged. -/
inductive Leads : Translator → Translator → Prop
  | refl (t : Translator) : Leads t t
  | encode {t u : Translator} (e : Expression) : Leads t u → Leads t (after (encode e) u)
  | decode {t u : Translator} {n : Node} : Leads t u → u.vocabulary.Gives n →
      Leads t (after (decode n) u)
  | merge {t u w other : Translator} : Leads t u → u.merge other = .ok w → Leads t w

/-- What is remembered is true and stays remembered. -/
theorem Leads.keeps (h : t.Leads u) (ht : t.Sound) : t.Keeps u := by
  induction h with
  | refl => exact ⟨ht, .refl _, fun _ _ => id⟩
  | encode e _ ih => exact ih.trans ((answered_encode _ e).keeps ih.sound)
  | decode _ gives ih => exact ih.trans ((answered_decode gives).keeps ih.sound)
  | merge _ run ih => exact ih.trans (keeps_merge ih.sound run)

/-! ## Answers from the memos -/

/-- Both directions are answered from the memos, and nothing but the count of that changes. -/
structure Hits (t : Translator) (l : Leaf) (n : Node) : Prop where
  encode : Translator.encode (.leaf l) t = .ok n { t with encoded := t.encoded.hit }
  decode : Translator.decode n t = .ok (.leaf l) { t with decoded := t.decoded.hit }

theorem Recalls.hits (h : t.Recalls l n) (ht : t.Faithful) : t.Hits l n where
  encode := encodeLeaf_of_found h.encoded
  decode := by
    have code := h.codes ht
    rw [decode_of_isLeaf code.isLeaf,
      bind_eq_of_ok (decodeLeaf_of_found code.leafOperator h.decoded)]
    rfl

theorem recalls_of_encode (ht : t.Sound) (run : outcome (encode (.leaf l)) t = .ok n) :
    (after (encode (.leaf l)) t).Recalls l n := by
  change outcome (encodeLeaf l) t = .ok n at run
  show (after (encodeLeaf l) t).Recalls l n
  have code := run
  rw [outcome_encodeLeaf ht.faithful] at code
  unfold outcome at run
  unfold after
  cases found : t.encoded.results[l]? with
  | some n' =>
    rw [encodeLeaf_of_found found] at run ⊢
    cases run
    exact ⟨found, (ht.mirrored l n).1 found⟩
  | none =>
    rw [encodeLeaf_of_none found, code]
    exact recalls_remember _ _ _

theorem recalls_of_decode (ht : t.Sound) (code : t.vocabulary.Codes l n) :
    (after (decode n) t).Recalls l n := by
  rw [after_decode code.isLeaf]
  unfold after
  cases found : t.decoded.results[n]? with
  | some l' =>
    obtain rfl := (Vocabulary.codes_of_encodeLeaf (ht.faithful.decoded n l' found)).leaf_unique code
    rw [decodeLeaf_of_found code.leafOperator found]
    exact ⟨(ht.mirrored _ n).2 found, found⟩
  | none =>
    rw [decodeLeaf_of_none code.leafOperator found, code.decodeLeaf]
    exact recalls_remember _ _ _

/-! ## Refusals -/

/-- Two translators remember the same. -/
structure SameResults (t u : Translator) : Prop where
  encoded : u.encoded.results = t.encoded.results
  decoded : u.decoded.results = t.decoded.results

theorem sameResults_encode {e : Expression} (run : outcome (encode e) t = .error fault) :
    t.SameResults (after (encode e) t) := by
  cases e with
  | constant c => cases run
  | combined k es => exact ⟨rfl, rfl⟩
  | leaf l =>
    change outcome (encodeLeaf l) t = .error fault at run
    show t.SameResults (after (encodeLeaf l) t)
    unfold outcome at run
    unfold after
    cases found : t.encoded.results[l]? with
    | some n =>
      rw [encodeLeaf_of_found found] at run
      cases run
    | none =>
      rw [encodeLeaf_of_none found] at run ⊢
      cases code : t.vocabulary.encodeLeaf l with
      | ok n =>
        rw [code] at run
        cases run
      | error fault' => exact ⟨rfl, rfl⟩

theorem sameResults_decodeLeaf (run : outcome (decodeLeaf n) t = .error fault) :
    t.SameResults (after (decodeLeaf n) t) := by
  unfold outcome at run
  unfold after
  cases hop : n.leafOperator with
  | error fault' =>
    rw [decodeLeaf_of_fault hop]
    exact ⟨rfl, rfl⟩
  | ok op =>
    cases found : t.decoded.results[n]? with
    | some l =>
      rw [decodeLeaf_of_found hop found] at run
      cases run
    | none =>
      rw [decodeLeaf_of_none hop found] at run ⊢
      cases code : t.vocabulary.decodeLeaf n with
      | ok l =>
        rw [code] at run
        cases run
      | error fault' => exact ⟨rfl, rfl⟩

theorem sameResults_decode (run : outcome (decode n) t = .error fault) :
    t.SameResults (after (decode n) t) := by
  unfold decode at run ⊢
  split at run
  · cases run
  split at run
  · cases run
  next ne_all ne_none =>
  rw [if_neg ne_all, if_neg ne_none, after_bind_pure]
  rw [outcome_bind_pure] at run
  cases refused : outcome (decodeLeaf n) t with
  | ok l =>
    rw [refused] at run
    cases run
  | error fault' => exact sameResults_decodeLeaf refused

/-- What is wrong with a leaf that a word is missing for is nothing else. -/
theorem isWellFormed_of_unknown {w : String} (hf : fault = .unknownName w ∨ fault = .unknownValue w)
    (run : t.vocabulary.encodeLeaf l = .error fault) : l.comparison.isWellFormed = true := by
  rw [← Bool.not_eq_false]
  intro malformed
  rw [Vocabulary.encodeLeaf_of_malformed malformed] at run
  rcases hf with rfl | rfl <;> cases run

/-! ## Arbitrary pasts -/

/-- **A translator's past cannot be seen.** It answers as a translator over its words that was asked
for nothing. A leaf that was translated once is answered from the memos ever after, and what is
refused leaves no trace: a leaf that a word was missing for is translated once its words are
there. -/
theorem past_is_invisible (past : (ofVocabulary v).Leads t) :
    (∀ e, outcome (encode e) t = outcome (encode e) (ofVocabulary t.vocabulary)) ∧
    (∀ n, outcome (decode n) t = outcome (decode n) (ofVocabulary t.vocabulary)) ∧
    (∀ l n, outcome (encode (.leaf l)) t = .ok n →
      ∀ u, (after (encode (.leaf l)) t).Leads u → u.Hits l n) ∧
    (∀ l n, t.vocabulary.Gives n → outcome (decode n) t = .ok (.leaf l) →
      ∀ u, (after (decode n) t).Leads u → u.Hits l n) ∧
    (∀ e fault, outcome (encode e) t = .error fault → t.SameResults (after (encode e) t)) ∧
    (∀ n fault, outcome (decode n) t = .error fault → t.SameResults (after (decode n) t)) ∧
    (∀ l fault w, outcome (encode (.leaf l)) t = .error fault →
      fault = .unknownName w ∨ fault = .unknownValue w →
      ∀ u, (after (encode (.leaf l)) t).Leads u → u.vocabulary.Covers l.comparison →
        ∃ n, outcome (encode (.leaf l)) u = .ok n ∧ outcome (decode n) u = .ok (.leaf l)) := by
  have sound := (past.keeps (sound_ofVocabulary v)).sound
  have fresh := faithful_ofVocabulary t.vocabulary
  refine ⟨outcome_encode sound.faithful fresh rfl, outcome_decode sound.faithful fresh rfl,
    ?encoded, ?decoded, fun _ _ => sameResults_encode, fun _ _ => sameResults_decode, ?unknown⟩
  case encoded =>
    intro l n run u later
    have keeps := later.keeps ((answered_encode t (.leaf l)).keeps sound).sound
    exact (keeps.recalls l n (recalls_of_encode sound run)).hits keeps.sound.faithful
  case decoded =>
    intro l n gives run u later
    have code := codes_of_outcome_decode sound.faithful gives run
    have keeps := later.keeps ((answered_decode gives).keeps sound).sound
    exact (keeps.recalls l n (recalls_of_decode sound code)).hits keeps.sound.faithful
  case unknown =>
    intro l fault w run hf u later covers
    change outcome (encodeLeaf l) t = .error fault at run
    rw [outcome_encodeLeaf sound.faithful] at run
    obtain ⟨n, code⟩ := Vocabulary.codes_of_covers (isWellFormed_of_unknown hf run) covers
    have keeps := later.keeps ((answered_encode t (.leaf l)).keeps sound).sound
    refine ⟨n, (outcome_encodeLeaf keeps.sound.faithful l).trans code.encodeLeaf, ?_⟩
    exact outcome_decode_of_codes keeps.sound.faithful code

end Translator

/-! ## A sample -/

namespace Sample

open Translator

/-- The leaf `b = x`. -/
def foreignLeaf : Leaf := ⟨false, "b", .equals, some (.value "x")⟩

/-- The translator that has translated `a = x` and refused `b = x`. -/
def asked : Translator :=
  after (encode (.leaf foreignLeaf)) (after (encode (.leaf equalLeaf)) (ofVocabulary vocabulary))

theorem outcome_equalLeaf : outcome (encode (.leaf equalLeaf)) (ofVocabulary vocabulary) =
    .ok equal :=
  (outcome_encodeLeaf (faithful_ofVocabulary vocabulary) equalLeaf).trans codes_equal.encodeLeaf

theorem outcome_foreignLeaf {t : Translator} (ht : t.Faithful) (same : t.vocabulary = vocabulary) :
    outcome (encode (.leaf foreignLeaf)) t = .error (.unknownName "b") := by
  refine (outcome_encodeLeaf ht foreignLeaf).trans ?_
  rw [same]
  have new : vocabulary.names.number? "b" = none := by
    have absent : "b" ∉ vocabulary.names.set := by
      rw [vocabulary, WordList.set_push]
      decide
    rw [← WordList.exists_number?_iff, not_exists] at absent
    exact Option.eq_none_iff_forall_ne_some.2 absent
  simp [Vocabulary.encodeLeaf, Vocabulary.nameNumber, foreignLeaf, Comparison.isWellFormed, new]
  rfl

/-- Merging makes up for the name that was missing, and `a = x` is still known by heart. -/
theorem asked_merged : ∃ u n, asked.merge (ofVocabulary otherVocabulary) = .ok u ∧
    u.Hits equalLeaf equal ∧ outcome (encode (.leaf foreignLeaf)) u = .ok n ∧
    outcome (decode n) u = .ok (.leaf foreignLeaf) := by
  have start := Leads.refl (ofVocabulary vocabulary)
  have past := Leads.encode (.leaf equalLeaf) start
  have keeps := past.keeps (sound_ofVocabulary vocabulary)
  have same := (answered_encode (ofVocabulary vocabulary) (.leaf equalLeaf)).vocabulary_eq
  have same' := (answered_encode _ (.leaf foreignLeaf)).vocabulary_eq.trans same
  obtain ⟨u, run, merged⟩ : ∃ u, asked.merge (ofVocabulary otherVocabulary) = .ok u ∧
      vocabulary.merge otherVocabulary = .ok u.vocabulary := by
    obtain ⟨v, run⟩ := exists_merge
    refine ⟨{ asked with vocabulary := v }, ?_, run⟩
    rw [Translator.merge, show asked.vocabulary = vocabulary from same']
    exact bind_eq_ok_iff.2 ⟨v, run, rfl⟩
  have covers : u.vocabulary.Covers foreignLeaf.comparison := by
    obtain ⟨names, values⟩ := Vocabulary.set_of_merge merged
    constructor
    · intro name hn
      obtain rfl := List.mem_singleton.1 hn
      rw [← WordList.mem_set, names, set_otherNames]
      exact Finset.mem_union_right _ (by decide)
    · intro w hw
      cases hw
      rw [← WordList.mem_set, values]
      exact Finset.mem_union_left _ (WordList.mem_set.2 ⟨0, rfl⟩)
  obtain ⟨-, -, hits, -⟩ := past_is_invisible start
  obtain ⟨-, -, -, -, -, -, unknown⟩ := past_is_invisible past
  have refused := outcome_foreignLeaf keeps.sound.faithful same
  obtain ⟨n, encoded, decoded⟩ :=
    unknown foreignLeaf _ "b" refused (.inl rfl) u (.merge (.refl _) run) covers
  have later : (after (encode (.leaf equalLeaf)) (ofVocabulary vocabulary)).Leads u :=
    .merge (.encode _ (.refl _)) run
  exact ⟨u, n, run, hits _ _ outcome_equalLeaf u later, encoded, decoded⟩

end Sample

end Criteria
