import Criteria.Proofs.Canonicity
import Criteria.Proofs.Isomorphism

/-!
# Leaf codes that are taken over as they are

Where a vocabulary continues that of another forest, the codes of leaves are taken over from it
without being read. `respell` is the way without this shortcut: each leaf is read with the one
vocabulary and coded with the other.

**Theorem (`Session.Reached.shortcut_agrees`).** Constants, codes of leaves and all combined nodes
are taken over alike both ways, with the same node or fault and the same lists in the end, and what
cannot be read in the other forest is refused as it is there. So are roots when forests are merged.
A code that is neither combined nor that of a constant or leaf is the exception: the shortcut
returns it as it is, whereas respelling refuses it, or clears it of stray bits.

Both ways are the same traversal but for the leaves, and run in step: the two forests differ in what
their translators remember, and both remember only what is true (`Forest.Twin`). A step that does
not look at the memos keeps this, and for the code of a leaf both answer with the code itself
(`match_leaf`), so that the induction on how deep a node nests (`match_recodeWithin`) needs no more
of the other forest than that its lists hold no stray codes.
-/

namespace Criteria

/-! ## Computations in step -/

section Step

variable {ε σ τ α β : Type} {R : σ → τ → Prop}

/-- The same answer or failure, in related states. -/
inductive Paired (R : σ → τ → Prop) : EStateM.Result ε σ α → EStateM.Result ε τ α → Prop
  | ok {a : α} {s : σ} {t : τ} : R s t → Paired R (.ok a s) (.ok a t)
  | error {e : ε} {s : σ} {t : τ} : R s t → Paired R (.error e s) (.error e t)

/-- From related states, two computations end alike. -/
def Match (R : σ → τ → Prop) (x : EStateM ε σ α) (y : EStateM ε τ α) : Prop :=
  ∀ s t, R s t → Paired R (x s) (y t)

namespace Match

variable {x : EStateM ε σ α} {y : EStateM ε τ α} {f : α → EStateM ε σ β} {g : α → EStateM ε τ β}

theorem pure (a : α) : Match R (Pure.pure a : EStateM ε σ α) (Pure.pure a : EStateM ε τ α) :=
  fun _ _ h => .ok h

theorem throw (e : ε) : Match R (throw e : EStateM ε σ α) (throw e : EStateM ε τ α) :=
  fun _ _ h => .error h

theorem bind (h : Match R x y) (h' : ∀ a, Match R (f a) (g a)) : Match R (x >>= f) (y >>= g) := by
  intro s t related
  show Paired R (EStateM.bind x f s) (EStateM.bind y g t)
  unfold EStateM.bind
  have first := h _ _ related
  generalize x s = left at first ⊢
  generalize y t = right at first ⊢
  cases first with
  | ok related => exact h' _ _ _ related
  | error related => exact .error related

/-- What has no state is the same for both. -/
theorem ofExcept {γ : Type} {z : Except ε γ} {f : γ → EStateM ε σ β} {g : γ → EStateM ε τ β}
    (h : ∀ c, z = .ok c → Match R (f c) (g c)) :
    Match R (Criteria.ofExcept z >>= f) (Criteria.ofExcept z >>= g) := by
  cases z with
  | ok c => exact h c rfl
  | error e => exact throw e

/-- To look at the states changes nothing. -/
theorem look {f : σ → EStateM ε σ α} {g : τ → EStateM ε τ α}
    (h : ∀ s t, R s t → Match R (f s) (g t)) : Match R (get >>= f) (get >>= g) := by
  intro s t related
  exact h s t related s t related

theorem mapM {l : List α} (h : ∀ a ∈ l, Match R (f a) (g a)) : Match R (l.mapM f) (l.mapM g) := by
  induction l with
  | nil =>
    rw [List.mapM_nil, List.mapM_nil]
    exact pure []
  | cons a l ih =>
    rw [List.mapM_cons, List.mapM_cons]
    refine (h a List.mem_cons_self).bind fun b => ?_
    exact (ih fun a ha => h a (List.mem_cons_of_mem _ ha)).bind fun bs => pure (b :: bs)

end Match

theorem Paired.outcome_eq {x : EStateM ε σ α} {y : EStateM ε τ α} {s : σ} {t : τ}
    (h : Paired R (x s) (y t)) : outcome x s = outcome y t ∧ R (after x s) (after y t) := by
  unfold outcome after
  generalize x s = left at h ⊢
  generalize y t = right at h ⊢
  cases h with
  | ok related => exact ⟨rfl, related⟩
  | error related => exact ⟨rfl, related⟩

end Step

/-- No stray code: a constant, a combined node, or the code of a leaf. -/
inductive Vocabulary.Coded (v : Vocabulary) : Node → Prop
  | constant {n : Node} : n.isConstant = true → v.Coded n
  | combined {n : Node} : n.isCombined = true → v.Coded n
  | leaf {n : Node} : v.Encodes n → v.Coded n

namespace Forest

variable {f g other : Forest} {v w : Vocabulary} {n : Node} {fuel : Nat}

/-! ## Taking over without the shortcut -/

/-- Takes over a leaf of the other forest by what it says. -/
def respellLeaf (n : Node) : Attempt Recoding Node := do
  let l ← Recoding.read (Translator.decodeLeaf n)
  Recoding.work (translate (Translator.encodeLeaf l))

theorem respellLeaf_of_read {x : Recoding} {l : Leaf} {n' : Node} {t u : Translator}
    (read : Translator.decodeLeaf n x.source = .ok l u)
    (run : Translator.encodeLeaf l x.forest.translator = .ok n' t) :
    respellLeaf n x = .ok n' ⟨{ x.forest with translator := t }, u, x.known⟩ := by
  rw [respellLeaf, bind_eq_of_ok (Recoding.read_of_ok read)]
  exact Recoding.work_of_ok (translate_eq_ok run)

/-- Takes over a node of `other` that nests less deep than `fuel`, and each leaf by what it says. -/
def respellWithin (other : Forest) : Nat → Node → Attempt Recoding Node
  | 0, n => throw (.cyclic n)
  | fuel + 1, n => do
    if n.isConstant then return n
    if let some n' := (← get).known[n]? then return n'
    let n' ← match n.connective? with
      | some k => do
        let ms ← ofExcept (other.store.members n)
        let ms' ← ms.mapM (respellWithin other fuel)
        Recoding.work (build (Build.combine k ms'))
      | none => respellLeaf n
    Recoding.note n n'
    return n'

/-- Takes over a node of `other`, and each leaf by what it says. -/
def respell (other : Forest) (n : Node) : Attempt Forest Node := fun f =>
  match respellWithin other other.nesting n (.start f other) with
  | .ok n' x => .ok n' x.forest
  | .error fault x => .error fault x.forest

/-- The forest with the roots of both, where each leaf of `other` is taken over by what it says. -/
def mergeRespelled (f other : Forest) : Except Fault Forest := do
  let translator ← f.translator.merge other.translator
  match other.roots.mapM (respellWithin other other.nesting)
      (.start { f with translator } other) with
  | .ok ns x => return { x.forest with roots := f.roots ++ ns }
  | .error fault _ => throw fault

/-! ## Two ways in step -/

/-- The words, lists and roots, without what is remembered. -/
def bare (f : Forest) : Vocabulary × Store × List Node := (f.vocabulary, f.store, f.roots)

/-- Two forests over the words of `v` that differ at most in which truths they remember. -/
structure Twin (v : Vocabulary) (f g : Forest) : Prop where
  words : f.vocabulary = v
  same : g.bare = f.bare
  faithful : f.translator.Faithful
  faithful' : g.translator.Faithful

theorem Twin.words' (h : Twin v f g) : g.vocabulary = v :=
  (congrArg Prod.fst h.same).trans h.words

theorem Twin.store_eq (h : Twin v f g) : g.store = f.store := congrArg (·.2.1) h.same

/-- Two runs of taking over whose forests are twins, which know the same and read the words of `w`.
Only the second of them reads. -/
structure Recoding.Twin (v w : Vocabulary) (x y : Recoding) : Prop where
  forest : x.forest.Twin v y.forest
  source : x.source.vocabulary = w
  source' : y.source.Speaks w
  known : y.known = x.known

theorem twin_start (hf : f.translator.Faithful) (ho : other.translator.Faithful) :
    Recoding.Twin f.vocabulary other.vocabulary (.start f other) (.start f other) :=
  ⟨⟨rfl, rfl, hf, hf⟩, rfl, ⟨ho, rfl⟩, rfl⟩

theorem match_work {α : Type} {a b : Attempt Forest α} (h : Match (Forest.Twin v) a b) :
    Match (Recoding.Twin v w) (Recoding.work a) (Recoding.work b) := by
  rintro ⟨f, source, known⟩ ⟨g, source', _⟩ ⟨twin, reads, reads', rfl⟩
  have step := h _ _ twin
  simp only [Recoding.work]
  generalize a f = left at step ⊢
  generalize b g = right at step ⊢
  cases step with
  | ok twin => exact .ok ⟨twin, reads, reads', rfl⟩
  | error twin => exact .error ⟨twin, reads, reads', rfl⟩

/-- Building does not look at what is remembered. -/
theorem match_build {α : Type} (x : Build α) : Match (Forest.Twin v) (build x) (build x) := by
  rintro ⟨t, s, roots⟩ ⟨t', s', roots'⟩ twin
  obtain rfl : s' = s := twin.store_eq
  simp only [build]
  have grown : ∀ s'' : Store, Forest.Twin v ⟨t, s'', roots⟩ ⟨t', s'', roots'⟩ := fun s'' =>
    ⟨twin.words, congrArg (fun b : _ × _ × _ => (b.1, s'', b.2.2)) twin.same, twin.faithful,
      twin.faithful'⟩
  cases x s' with
  | ok a s'' => exact .ok (grown s'')
  | error fault s'' => exact .error (grown s'')

theorem match_note (n n' : Node) :
    Match (Recoding.Twin v w) (Recoding.note n n') (Recoding.note n n') := by
  rintro ⟨f, source, known⟩ ⟨g, source', _⟩ ⟨twin, reads, reads', rfl⟩
  exact .ok ⟨twin, reads, reads', rfl⟩

/-- The code of a leaf is the answer both ways. -/
theorem match_leaf (goesOn : v.continues w = true) (code : w.Encodes n) :
    Match (Recoding.Twin v w) (recodeLeaf n) (respellLeaf n) := by
  rintro x ⟨g, source, known⟩ ⟨twin, reads, reads', rfl⟩
  obtain ⟨l, code⟩ := Vocabulary.encodes_iff.1 code
  have code' : g.vocabulary.Codes l n := by
    rw [twin.words']
    exact (Vocabulary.within_of_continues goesOn).codes code
  obtain ⟨u, read, speaks⟩ := reads'.decodeLeaf code
  obtain ⟨t, run, faithful, same⟩ := Translator.encodeLeaf_of_codes twin.faithful' code'
  have respelled : respellLeaf n ⟨g, source, x.known⟩ =
      .ok n ⟨{ g with translator := t }, u, x.known⟩ := respellLeaf_of_read read run
  have words : x.forest.vocabulary.continues x.source.vocabulary = true := by
    rw [twin.words, reads]
    exact goesOn
  rw [recodeLeaf_of_continues words, respelled]
  have bare_eq : bare { g with translator := t } = g.bare :=
    congrArg (fun w => (w, g.store, g.roots)) same
  exact .ok ⟨⟨twin.words, bare_eq.trans twin.same, twin.faithful, faithful⟩, reads, speaks, rfl⟩

theorem ValidNode.coded (h : f.ValidNode n) : f.vocabulary.Coded n := by
  cases h with
  | constant hn => exact .constant hn
  | leaf code => exact .leaf code
  | combined hk _ _ => exact .combined (Node.isCombined_of_connective? hk)

/-- Lists that are there hold no stray codes. -/
theorem coded_of_list? (hs : f.store.Valid f.vocabulary) :
    ∀ id l, f.store.list? id = some l → ∀ m ∈ l, f.vocabulary.Coded m := fun id l list m hm =>
  ValidNode.coded (hs.members id l list m hm)

/-- A node is taken over alike both ways, if neither it nor any list holds a stray code. -/
theorem match_recodeWithin (fuel : Nat) (goesOn : v.continues other.vocabulary = true)
    (lists : ∀ id l, other.store.list? id = some l → ∀ m ∈ l, other.vocabulary.Coded m)
    (hn : other.vocabulary.Coded n) :
    Match (Recoding.Twin v other.vocabulary) (recodeWithin other fuel n)
      (respellWithin other fuel n) := by
  induction fuel generalizing n with
  | zero => exact .throw _
  | succ fuel ih =>
    rw [recodeWithin, respellWithin]
    split
    · exact .pure n
    next not_constant =>
    refine .look fun x y twin => ?_
    rw [twin.known]
    cases x.known[n]? with
    | some n' => exact .pure n'
    | none =>
    have noted : ∀ n', Match (Recoding.Twin v other.vocabulary)
        (do Recoding.note n n'; return n') (do Recoding.note n n'; return n') := fun n' =>
      (match_note n n').bind fun _ => .pure n'
    cases hk : n.connective? with
    | some k =>
      refine .ofExcept fun ms read => ?_
      have coded := lists _ _ (Store.list?_of_members read).2
      refine (Match.mapM fun m hm => ih (coded m hm)).bind fun ms' => ?_
      exact (match_work (match_build _)).bind noted
    | none =>
      cases hn with
      | constant hn => exact (not_constant hn).elim
      | combined hn =>
        rw [Node.connective?_eq_none_iff.1 hk] at hn
        cases hn
      | leaf code => exact (match_leaf goesOn code).bind noted

/-- A node is taken over alike both ways, and so are the lists that are needed for it. -/
theorem recode_eq_respell (hf : f.translator.Faithful) (ho : other.Valid)
    (goesOn : f.vocabulary.continues other.vocabulary = true) (hn : other.vocabulary.Coded n) :
    outcome (recode other n) f = outcome (respell other n) f ∧
      (after (respell other n) f).bare = (after (recode other n) f).bare := by
  have step := match_recodeWithin other.nesting goesOn (coded_of_list? ho.store) hn _ _
    (twin_start hf ho.translator)
  have paired : Paired (Forest.Twin f.vocabulary) (recode other n f) (respell other n f) := by
    rw [recode_eq, respell]
    generalize recodeWithin other other.nesting n (.start f other) = left at step ⊢
    generalize respellWithin other other.nesting n (.start f other) = right at step ⊢
    cases step with
    | ok twin => exact .ok twin.forest
    | error twin => exact .error twin.forest
  obtain ⟨same, twin⟩ := paired.outcome_eq
  exact ⟨same, twin.same⟩

/-- Words that go on with those of the other forest are those of both. -/
theorem merge_of_continues (goesOn : f.vocabulary.continues other.vocabulary = true) :
    f.translator.merge other.translator = .ok f.translator := by
  rw [Translator.merge, Vocabulary.merge]
  exact bind_eq_ok_iff.2 ⟨f.vocabulary, if_pos goesOn, rfl⟩

/-- The roots that become of roots that are taken over. -/
theorem merge_eq (goesOn : f.vocabulary.continues other.vocabulary = true) :
    f.merge other =
      match other.roots.mapM (recodeWithin other other.nesting) (.start f other) with
      | .ok ns x => .ok { x.forest with roots := f.roots ++ ns }
      | .error fault _ => .error fault :=
  merge_of_merged (merge_of_continues goesOn)

theorem mergeRespelled_eq (goesOn : f.vocabulary.continues other.vocabulary = true) :
    f.mergeRespelled other =
      match other.roots.mapM (respellWithin other other.nesting) (.start f other) with
      | .ok ns x => .ok { x.forest with roots := f.roots ++ ns }
      | .error fault _ => .error fault := by
  rw [mergeRespelled, merge_of_continues goesOn]
  rfl

/-- Roots are taken over alike both ways. -/
theorem merge_eq_mergeRespelled (hf : f.translator.Faithful) (ho : other.translator.Faithful)
    (lists : other.store.Valid other.vocabulary)
    (goesOn : f.vocabulary.continues other.vocabulary = true)
    (roots : ∀ n ∈ other.roots, other.vocabulary.Coded n) :
    (f.merge other).map bare = (f.mergeRespelled other).map bare := by
  have step := Match.mapM (fun n hn => match_recodeWithin other.nesting goesOn
    (coded_of_list? lists) (roots n hn)) _ _ (twin_start hf ho)
  rw [merge_eq goesOn, mergeRespelled_eq goesOn]
  generalize other.roots.mapM (recodeWithin other other.nesting) (.start f other) = left at step ⊢
  generalize other.roots.mapM (respellWithin other other.nesting) (.start f other) = right
    at step ⊢
  cases step with
  | @ok ns x y twin =>
    have same := congrArg (fun b : _ × _ × _ => (b.1, b.2.1, f.roots ++ ns)) twin.forest.same
    exact congrArg Except.ok same.symm
  | error twin => rfl

/-! ## Stray codes -/

/-- The shortcut returns a code that is neither combined nor that of a constant, whatever it is. -/
theorem recode_of_not_combined (goesOn : f.vocabulary.continues other.vocabulary = true)
    (not_constant : n.isConstant = false) (not_combined : n.isCombined = false) :
    recode other n f = .ok n f := by
  have new : (Recoding.start f other).known[n]? = none := Std.HashMap.getElem?_empty
  have leaf : recodeLeaf n (.start f other) = .ok n (.start f other) :=
    recodeLeaf_of_continues goesOn
  rw [recode_eq, nesting, recodeWithin_of_recodeLeaf other _ not_constant not_combined new leaf]
  rfl

/-- Respelled, it is refused as it is when it is read, or cleared. -/
theorem respell_of_not_combined (hf : f.translator.Faithful) (ho : other.translator.Faithful)
    (goesOn : f.vocabulary.continues other.vocabulary = true)
    (not_constant : n.isConstant = false) (not_combined : n.isCombined = false) :
    outcome (respell other n) f = (other.vocabulary.decodeLeaf n).map fun _ => n.cleared := by
  have new : (Recoding.start f other).known[n]? = none := Std.HashMap.getElem?_empty
  rw [outcome, respell, nesting, respellWithin, if_neg (Bool.eq_false_iff.1 not_constant),
    Attempt.get_bind, new, Node.connective?_eq_none_iff.2 not_combined]
  simp only
  have answer := Translator.outcome_decodeLeaf ho n
  rw [← show other.translator.vocabulary = other.vocabulary from rfl, ← answer, outcome]
  cases read : Translator.decodeLeaf n other.translator with
  | error fault u =>
    have leaf : respellLeaf n (.start f other) = .error fault ⟨f, u, ∅⟩ :=
      bind_eq_of_error (Recoding.read_of_error (x := .start f other) read)
    rw [bind_eq_of_error leaf]
    rfl
  | ok l u =>
    have said : other.vocabulary.decodeLeaf n = .ok l := by
      rw [outcome, read] at answer
      exact answer.symm
    have code := (Vocabulary.within_of_continues goesOn).codes (Vocabulary.codes_cleared said)
    obtain ⟨t, run, -⟩ := Translator.encodeLeaf_of_codes hf code
    have leaf : respellLeaf n (.start f other) =
        .ok n.cleared ⟨{ f with translator := t }, u, ∅⟩ := respellLeaf_of_read read run
    rw [bind_eq_of_ok leaf]
    rfl

/-! ## What is refused -/

/-- What may be handed in of a forest: valid nodes, and combined ones whose lists are not there. -/
inductive Known (f : Forest) : Node → Prop
  | valid {n : Node} : f.ValidNode n → Known f n
  | absent {n : Node} : n.isCombined = true → f.store.list? n.number = none → Known f n

/-- A node has no members if its list is not there. -/
theorem exists_fault_of_absent (hn : n.isCombined = true) (absent : f.store.list? n.number = none) :
    ∃ k fault, n.connective? = some k ∧ f.store.members n = .error fault := by
  obtain ⟨k, hk⟩ := Node.exists_connective? hn
  cases read : f.store.members n with
  | error fault => exact ⟨k, fault, hk, rfl⟩
  | ok ms =>
    rw [(Store.list?_of_members read).2] at absent
    cases absent

section Absent

variable {k : Connective} {fault : Fault} {x : Recoding}

theorem express_of_absent (hk : n.connective? = some k)
    (refused : f.store.members n = .error fault) : outcome (express n) f = .error fault := by
  have run : expressWithin f.store (f.store.size + 2) n f.translator =
      .error fault f.translator := by
    rw [expressWithin, hk, refused]
    rfl
  obtain ⟨t, s, roots⟩ := f
  simp only [outcome, express, translate, run]

theorem recodeWithin_of_absent (hk : n.connective? = some k)
    (refused : other.store.members n = .error fault) (new : x.known[n]? = none) :
    recodeWithin other (fuel + 1) n x = .error fault x := by
  have not_constant := Node.not_isConstant_of_isCombined (Node.isCombined_of_connective? hk)
  rw [recodeWithin, if_neg (Bool.eq_false_iff.1 not_constant), Attempt.get_bind, new, hk]
  simp only
  rw [refused]
  rfl

theorem recode_of_absent (hk : n.connective? = some k)
    (refused : other.store.members n = .error fault) :
    outcome (recode other n) f = .error fault := by
  have new : (Recoding.start f other).known[n]? = none := Std.HashMap.getElem?_empty
  rw [outcome, recode_eq, nesting, recodeWithin_of_absent hk refused new]

end Absent

/-- A vocabulary has codes for all leaves of one that it continues. -/
theorem includes_of_continues (goesOn : f.vocabulary.continues other.vocabulary = true) :
    f.vocabulary.Includes other.vocabulary :=
  fun _ n code => ⟨n, (Vocabulary.within_of_continues goesOn).codes code⟩

/-- A valid node is taken over, or no number is left. -/
theorem recode_of_valid (hf : f.Valid) (ho : other.Valid)
    (goesOn : f.vocabulary.continues other.vocabulary = true) (hn : other.ValidNode n) :
    (∃ n', outcome (recode other n) f = .ok n') ∨
      ∃ id, outcome (recode other n) f = .error (.numberTooLarge id) := by
  have taken := recode_of_includes hf ho hn (includes_of_continues goesOn)
  unfold outcome
  cases run : recode other n f with
  | ok n' g => exact .inl ⟨n', rfl⟩
  | error fault g =>
    rw [run] at taken
    obtain ⟨id, rfl, -⟩ := taken
    exact .inr ⟨id, rfl⟩

/-- A node is refused just as it is when it is read, but that the numbers may run out. -/
theorem recode_refuses (hf : f.Valid) (ho : other.Valid)
    (goesOn : f.vocabulary.continues other.vocabulary = true) (hn : other.Known n) :
    (∀ fault, outcome (express n) other = .error fault →
      outcome (recode other n) f = .error fault) ∧
    ((∃ e, outcome (express n) other = .ok e) → (∃ n', outcome (recode other n) f = .ok n') ∨
      ∃ id, outcome (recode other n) f = .error (.numberTooLarge id)) := by
  cases hn with
  | valid hn =>
    refine ⟨fun fault refused => ?_, fun _ => recode_of_valid hf ho goesOn hn⟩
    rw [outcome_express ho hn] at refused
    cases refused
  | absent hn absent =>
    obtain ⟨k, fault, hk, refused⟩ := exists_fault_of_absent hn absent
    rw [express_of_absent hk refused, recode_of_absent hk refused]
    refine ⟨fun fault same => ?_, fun ⟨e, read⟩ => by cases read⟩
    cases same
    rfl

/-! ## Roots that are refused -/

namespace Recoding

/-- Taking over, seen from what is noted: only valid nodes are. -/
def noting (other : Forest) : Growth Fault Recoding where
  valid x := ∀ m m', x.known[m]? = some m' → other.ValidNode m
  le _ _ := True
  fails _ _ := True
  refl _ := trivial
  trans _ _ := trivial

/-- Reading notes nothing. -/
theorem ensures_read_noting {α : Type} {x : Recoding} (a : Attempt Translator α) :
    (noting other).Ensures (read a) x fun _ _ => True := by
  intro hx
  obtain ⟨f, source, known⟩ := x
  simp only [read]
  cases a source with
  | ok b t => exact ⟨hx, trivial, trivial⟩
  | error fault t => exact ⟨hx, trivial, trivial⟩

/-- Work on the forest notes nothing. -/
theorem ensures_work_noting {α : Type} {x : Recoding} {P : Prop} (a : Attempt Forest α) (h : P) :
    (noting other).Ensures (work a) x fun _ _ => P :=
  ensures_work_of_frame (fun hx => ⟨hx, trivial⟩) (fun _ _ => trivial) a h

theorem carries_noting (other : Forest) :
    Carries other (noting other) fun n _ _ => other.ValidNode n where
  stable _ _ _ _ _ _ h := h
  constant hn := .constant hn
  found hx found := hx _ _ found
  note hn hx := ⟨forall_insert hx hn, trivial, trivial⟩
  combine hn _ _ _ := ensures_work_noting _ hn
  leaf {n x} code := by
    unfold recodeLeaf
    refine (Growth.Ensures.get (R := fun _ _ => True) fun _ => trivial).bind fun _ y _ _ _ => ?_
    split
    · exact .pure fun _ => .leaf code
    · exact (ensures_read_noting _).bind fun l _ _ _ _ => ensures_work_noting _ (.leaf code)

end Recoding

/-- Where all of some nodes are taken over, each of them is valid. -/
theorem valid_of_recodeAll {ns ns' : List Node} {x y : Recoding} (ho : other.Valid)
    (hns : ∀ n ∈ ns, other.Known n) (hx : (Recoding.noting other).valid x)
    (run : ns.mapM (recodeWithin other other.nesting) x = .ok ns' y) :
    ∀ n ∈ ns, other.ValidNode n := by
  induction ns generalizing x y ns' with
  | nil => exact fun _ hn => (List.not_mem_nil hn).elim
  | cons n ns ih =>
    rw [List.mapM_cons] at run
    obtain ⟨n', z, first, run⟩ := exists_of_bind_eq_ok run
    obtain ⟨ns'', u, rest, -⟩ := exists_of_bind_eq_ok run
    have hn : other.ValidNode n := by
      cases hns n List.mem_cons_self with
      | valid hn => exact hn
      | absent hn absent =>
        -- Such a node is not noted, so its list is asked for.
        obtain ⟨k, fault, hk, refused⟩ := exists_fault_of_absent hn absent
        cases known : x.known[n]? with
        | some m => exact hx n m known
        | none =>
          rw [nesting, recodeWithin_of_absent hk refused known] at first
          cases first
    have hz := (((Recoding.carries_noting other).ensures_recodeWithin ho hn
      hn.level_lt_nesting).of_ok hx first).1
    intro m hm
    rcases List.mem_cons.1 hm with rfl | hm
    · exact hn
    · exact ih (fun m hm => hns m (List.mem_cons_of_mem _ hm)) hz rest m hm

/-- Which roots the other forest has is of no importance for taking over. -/
theorem recodeWithin_withRoots (other : Forest) (roots : List Node) :
    recodeWithin { other with roots } fuel = recodeWithin other fuel := by
  induction fuel with
  | zero => rfl
  | succ fuel ih =>
    funext n
    rw [recodeWithin, recodeWithin, ih]

theorem merge_withRoots {ns : List Node} (goesOn : f.vocabulary.continues other.vocabulary = true) :
    f.merge { other with roots := ns } =
      match ns.mapM (recodeWithin other other.nesting) (.start f other) with
      | .ok ns' x => .ok { x.forest with roots := f.roots ++ ns' }
      | .error fault _ => .error fault := by
  have merged : f.merge { other with roots := ns } = _ := merge_eq goesOn
  rw [merged, recodeWithin_withRoots]
  rfl

/-- Merging refuses roots that cannot be read, and no others unless the numbers run out. -/
theorem merge_refuses {ns : List Node} (hf : f.Valid) (ho : other.Valid)
    (goesOn : f.vocabulary.continues other.vocabulary = true) (hns : ∀ n ∈ ns, other.Known n) :
    ((∃ g, f.merge { other with roots := ns } = .ok g) →
      ∀ n ∈ ns, ∃ e, outcome (express n) other = .ok e) ∧
    ((∀ n ∈ ns, ∃ e, outcome (express n) other = .ok e) →
      (∃ g, f.merge { other with roots := ns } = .ok g) ∨
        ∃ id, f.merge { other with roots := ns } = .error (.numberTooLarge id)) := by
  rw [merge_withRoots goesOn]
  have valid_of_read : ∀ n ∈ ns, (∃ e, outcome (express n) other = .ok e) → other.ValidNode n := by
    intro n hn ⟨e, read⟩
    cases hns n hn with
    | valid hn => exact hn
    | absent hn absent =>
      obtain ⟨k, fault, hk, refused⟩ := exists_fault_of_absent hn absent
      rw [express_of_absent hk refused] at read
      cases read
  constructor
  · rintro ⟨g, merged⟩ n hn
    split at merged
    · next ns' x run =>
      have valid := valid_of_recodeAll ho hns
        (fun m m' found => by simp [Recoding.start] at found) run n hn
      exact ⟨other.spell n, outcome_express ho valid⟩
    · cases merged
  · intro read
    have taken := (Recoding.carries_shape ho).ensures_recodeAll (x := .start f other) ho
      fun n hn => valid_of_read n hn (read n hn)
    split
    · exact .inl ⟨_, rfl⟩
    · next fault x run =>
      obtain ⟨-, le, fails⟩ := taken.of_error (Recoding.valid_start hf ho) run
      have le : f.Extends x.forest := le
      obtain ⟨id, rfl⟩ := (fails (le.vocabulary_eq ▸ includes_of_continues goesOn)).fault
      exact .inr ⟨id, rfl⟩

end Forest

/-! ## Sessions -/

namespace Session

variable {x y : Session}

/-- What may be handed in: usable nodes, and combined ones whose lists are not there, as they were
swept away or never made. -/
def Offered (x : Session) (n : Node) : Prop :=
  x.Usable n ∨ n.isCombined = true ∧ x.forest.store.list? n.number = none

theorem Sound.known {n : Node} (hx : x.Sound) (hn : x.Offered n) : x.forest.Known n :=
  hn.elim (fun usable => .valid (hx.validNode usable)) fun ⟨hn, absent⟩ => .absent hn absent

/-- **The shortcut agrees with respelling, but for stray codes.** Let one forest have the words of
another under their numbers.

* Constants, combined nodes and codes of leaves are taken over with the same answer, node or fault,
  and the same lists, whether codes of leaves are taken as they are or read and coded again.
* Any other code is returned as it is, whereas respelling refuses it with the fault of reading it,
  or clears it.
* An offered node is refused just if it cannot be read, and for the same reason, but that the
  numbers may run out.
* So it is with merging, whatever the roots of the other forest are. -/
theorem Reached.shortcut_agrees (hx : x.Reached) (hy : y.Reached)
    (goesOn : x.forest.vocabulary.continues y.forest.vocabulary = true) :
    (∀ n, y.forest.vocabulary.Coded n →
      outcome (y.forest.recode n) x.forest = outcome (y.forest.respell n) x.forest ∧
        (after (y.forest.respell n) x.forest).bare = (after (y.forest.recode n) x.forest).bare) ∧
    (∀ n, n.isConstant = false → n.isCombined = false →
      y.forest.recode n x.forest = .ok n x.forest ∧ outcome (y.forest.respell n) x.forest =
        (y.forest.vocabulary.decodeLeaf n).map fun _ => n.cleared) ∧
    (∀ n, y.Offered n →
      (∀ fault, outcome (Forest.express n) y.forest = .error fault →
        outcome (y.forest.recode n) x.forest = .error fault) ∧
      ((∃ e, outcome (Forest.express n) y.forest = .ok e) →
        (∃ n', outcome (y.forest.recode n) x.forest = .ok n') ∨
          ∃ id, outcome (y.forest.recode n) x.forest = .error (.numberTooLarge id))) ∧
    (∀ roots : List Node, (∀ n ∈ roots, y.forest.vocabulary.Coded n) →
      (x.forest.merge { y.forest with roots }).map Forest.bare =
        (x.forest.mergeRespelled { y.forest with roots }).map Forest.bare) ∧
    (∀ roots : List Node, (∀ n ∈ roots, y.Offered n) →
      ((∃ g, x.forest.merge { y.forest with roots } = .ok g) →
        ∀ n ∈ roots, ∃ e, outcome (Forest.express n) y.forest = .ok e) ∧
      ((∀ n ∈ roots, ∃ e, outcome (Forest.express n) y.forest = .ok e) →
        (∃ g, x.forest.merge { y.forest with roots } = .ok g) ∨
          ∃ id, x.forest.merge { y.forest with roots } = .error (.numberTooLarge id))) := by
  have hx := hx.sound
  have hy := hy.sound
  have faithful := hx.forest.translator
  refine ⟨fun n => Forest.recode_eq_respell faithful hy.forest goesOn, ?stray,
    fun n hn => Forest.recode_refuses hx.forest hy.forest goesOn (hy.known hn), ?roots,
    fun roots hn => Forest.merge_refuses hx.forest hy.forest goesOn fun n hr => hy.known (hn n hr)⟩
  case stray =>
    intro n not_constant not_combined
    exact ⟨Forest.recode_of_not_combined goesOn not_constant not_combined,
      Forest.respell_of_not_combined faithful hy.forest.translator goesOn not_constant
        not_combined⟩
  case roots =>
    intro roots coded
    exact Forest.merge_eq_mergeRespelled faithful hy.forest.translator hy.forest.store goesOn coded

end Session

/-! ## A sample -/

namespace Sample

/-- The AND of the sample is taken over, and the stale code and the invalid node are returned as
they are, whereas respelling refuses them. -/
theorem stale_taken_over :
    outcome (session.forest.recode both) (.ofVocabulary vocabulary) =
      outcome (session.forest.respell both) (.ofVocabulary vocabulary) ∧
    session.forest.recode stale (.ofVocabulary vocabulary) = .ok stale (.ofVocabulary vocabulary) ∧
    outcome (session.forest.respell stale) (.ofVocabulary vocabulary) = .error (.valueNumber 5) ∧
    session.forest.recode .invalid (.ofVocabulary vocabulary) =
      .ok .invalid (.ofVocabulary vocabulary) ∧
    outcome (session.forest.respell .invalid) (.ofVocabulary vocabulary) = .error .invalidNode := by
  have goesOn := Vocabulary.continues_iff.2 (.refl vocabulary)
  have start := Session.Reached.ofVocabulary vocabulary
  obtain ⟨same, others, -⟩ := start.shortcut_agrees reached goesOn
  obtain ⟨stale_same, stale_refused⟩ := others stale (by decide) (by decide)
  obtain ⟨invalid_same, invalid_refused⟩ := others .invalid (by decide) (by decide)
  exact ⟨(same both (.combined (by decide))).1, stale_same, stale_refused, invalid_same,
    invalid_refused⟩

end Sample

end Criteria
