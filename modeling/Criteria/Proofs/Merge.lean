import Criteria.Forest.Merge
import Criteria.Proofs.NodeShape

/-!
# Merging keeps conditions as they are

**Theorem (`ensures_recode_shape`, `merge_shape`).** What a forest takes over from another has
in it the shape that it had in the other, and so it means the same (`ensures_recode`,
`merge_eq_ok`). A merged forest keeps the nodes of the first.

Taking over goes from the members up to a node, so whatever is to be said of it is said of leaves, of
nodes that are joined from what became of their members, and of nodes that were taken over before
(`Recoding.Carries`), and there is one induction for all of it. The invariant of `Recoding.growth`
says of the nodes taken over before that they have their shapes, so it makes no difference whether a
node is found among them or built anew. What the translator of the other forest remembers is true,
so a leaf is read as what it is, whether it was read before or not. Where all leaves of the other
forest can be coded, taking over fails only when no number is left.
-/

namespace Criteria

/-- All leaves that have codes under `w` have codes under `v`. -/
def Vocabulary.Includes (v w : Vocabulary) : Prop := ∀ l n, w.Codes l n → ∃ n', v.Codes l n'

/-- A translator over the words of `v` that remembers what is true. -/
structure Translator.Speaks (t : Translator) (v : Vocabulary) : Prop where
  faithful : t.Faithful
  vocabulary_eq : t.vocabulary = v

theorem Translator.Speaks.decodeLeaf {t : Translator} {v : Vocabulary} {l : Leaf} {n : Node}
    (h : t.Speaks v) (code : v.Codes l n) :
    ∃ u, Translator.decodeLeaf n t = .ok l u ∧ u.Speaks v := by
  rw [← h.vocabulary_eq] at code
  obtain ⟨u, run, faithful, same⟩ := Translator.decodeLeaf_of_codes h.faithful code
  exact ⟨u, run, faithful, same.trans h.vocabulary_eq⟩

namespace Store

variable {v v' : Vocabulary} {s : Store} {n : Node}

theorem ValidNode.within (h : v.Within v') (hn : s.ValidNode v n) : s.ValidNode v' n := by
  cases hn with
  | constant hn => exact .constant hn
  | leaf code => exact .leaf (h.encodes code)
  | combined hk hl hc => exact .combined hk hl hc

theorem Valid.within (h : v.Within v') (hs : s.Valid v) : s.Valid v' :=
  ⟨hs.layered, fun id l hl m hm => (hs.members id l hl m hm).within h, hs.size_le⟩

end Store

namespace Forest

variable {f g other : Forest} {r : Record} {n n' : Node} {x : Recoding} {α : Type}

/-- A node of the shape that a node of another forest has there means the same. -/
theorem Has.means (ho : other.Valid) (hn : other.ValidNode n) (hf : f.Valid)
    (h : f.Has n' (other.shape n)) : f.Means r n' (other.holds r n) :=
  ⟨h.valid, fun _ =>
    Store.holds_of_shape_eq ho.store hf.store hn h.valid h.shape_eq.symm r⟩

theorem has_of_codes {l : Leaf} (code : other.vocabulary.Codes l n)
    (code' : f.vocabulary.Codes l n') : f.Has n' (other.shape n) := by
  rw [shape, Store.shape_of_codes code]
  exact .of_codes code'

/-! ## Taking over -/

theorem ValidNode.level_lt_nesting (hn : f.ValidNode n) : n.level < f.nesting := by
  have := hn.level_le
  unfold nesting
  omega

theorem Recoding.work_of_ok {a : α} {y : Attempt Forest α} (h : y x.forest = .ok a f) :
    work y x = .ok a { x with forest := f } := by
  rw [work, h]

theorem Recoding.read_of_ok {a : α} {t : Translator} {y : Attempt Translator α}
    (h : y x.source = .ok a t) : read y x = .ok a { x with source := t } := by
  rw [read, h]

theorem Recoding.read_of_error {fault : Fault} {t : Translator} {y : Attempt Translator α}
    (h : y x.source = .error fault t) : read y x = .error fault { x with source := t } := by
  rw [read, h]

/-- What is so of all nodes that are known stays so when another one is noted of which it is so. -/
theorem Recoding.forall_insert {P : Node → Node → Prop} {known : Std.HashMap Node Node}
    (all : ∀ m m', known[m]? = some m' → P m m') (h : P n n') :
    ∀ m m', (known.insert n n')[m]? = some m' → P m m' := by
  intro m m' found
  rw [Std.HashMap.getElem?_insert] at found
  split at found
  · next same =>
    cases found
    exact beq_iff_eq.1 same ▸ h
  · exact all m m' found

/-- What is made of nodes that are taken over, if it is kept while more nodes are: every step makes a
node for which it holds, given members for which it does. -/
structure Recoding.Carries (other : Forest) (g : Growth Fault Recoding)
    (Q : Node → Node → Recoding → Prop) : Prop where
  stable : ∀ n n', g.Stable (Q n n')
  constant : ∀ {n x}, n.isConstant = true → Q n n x
  found : ∀ {n n'} {x : Recoding}, g.valid x → x.known[n]? = some n' → Q n n' x
  note : ∀ {n n' x}, Q n n' x → g.Ensures (note n n') x fun _ _ => True
  combine : ∀ {n k ms ms' x}, other.ValidNode n → n.connective? = some k →
    other.store.list? n.number = some ms → List.Forall₂ (fun m m' => Q m m' x) ms ms' →
    g.Ensures (work (build (Build.combine k ms'))) x (Q n)
  leaf : ∀ {n x}, other.vocabulary.Encodes n → g.Ensures (recodeLeaf n) x (Q n)

namespace Recoding.Carries

variable {g : Growth Fault Recoding} {Q : Node → Node → Recoding → Prop}

/-- A node that is taken over. -/
theorem ensures_recodeWithin {fuel : Nat} (h : Carries other g Q) (ho : other.Valid)
    (hn : other.ValidNode n) (deep : n.level < fuel) :
    g.Ensures (recodeWithin other fuel n) x (Q n) := by
  induction fuel generalizing n x with
  | zero => exact (Nat.not_lt_zero _ deep).elim
  | succ fuel ih =>
    rw [recodeWithin]
    split
    · next constant => exact .pure fun _ => h.constant constant
    next not_constant =>
    rw [Bool.not_eq_true] at not_constant
    refine (Growth.Ensures.get (R := fun x y => x = y) fun _ => rfl).bind fun _ x _ _ same => ?_
    subst same
    split
    · next found => exact .pure fun hx => h.found hx found
    -- A new node is noted after it is made.
    have noted : ∀ {y : Recoding} {n' : Node}, Q n n' y →
        g.Ensures (do Recoding.note n n'; return n') y (Q n) := by
      intro y n' made
      exact .assuming fun hy => (h.note made).bind fun _ z _ le _ => .pure fun _ =>
        h.stable n n' hy le made
    split
    · next k hk =>
      obtain ⟨ms, list, -⟩ := hn.list? hk
      have hms := Store.members_eq_ok hk list
      refine (Growth.Ensures.ofExcept (Q := fun ms' _ => ms = ms')
        fun _ => ⟨ms, hms, rfl⟩).bind fun _ y _ _ same => ?_
      subst same
      have lower : ∀ m ∈ ms, m.level < fuel := fun m hm =>
        Nat.lt_of_lt_of_le (Store.level_lt_of_mem ho.store.layered hk list hm)
          (Nat.le_of_lt_succ deep)
      have each : g.Ensures (ms.mapM (recodeWithin other fuel)) y
          fun ms' y => List.Forall₂ (fun m m' => Q m m' y) ms ms' :=
        .mapM (P := fun m _ => other.ValidNode m) (fun _ _ _ _ _ h => h) h.stable
          (fun m hm y valid => ih valid (lower m hm)) (ho.store.members _ _ list)
      refine each.bind fun ms' z _ _ hms' => ?_
      exact (h.combine hn hk list hms').bind fun n' u _ _ made => noted made
    · next hk =>
      have code := hn.encodes not_constant hk
      exact (h.leaf code).bind fun n' u _ _ made => noted made

/-- Nodes that are taken over in turn. -/
theorem ensures_recodeAll {ns : List Node} (h : Carries other g Q) (ho : other.Valid)
    (hns : ∀ n ∈ ns, other.ValidNode n) :
    g.Ensures (ns.mapM (recodeWithin other other.nesting)) x
      fun ns' x => List.Forall₂ (fun n n' => Q n n' x) ns ns' :=
  .mapM (P := fun n _ => other.ValidNode n) (fun _ _ _ _ _ h => h) h.stable
    (fun _ _ _ hn => h.ensures_recodeWithin ho hn hn.level_lt_nesting) hns

end Recoding.Carries

/-- Work on the forest keeps what does not depend on it. -/
theorem Recoding.ensures_work_of_frame {g : Growth Fault Recoding} {P : Prop}
    (kept : ∀ {x : Recoding} {f : Forest}, g.valid x →
      g.valid { x with forest := f } ∧ g.le x { x with forest := f })
    (fails : ∀ fault x, g.fails fault x) (a : Attempt Forest α) (h : P) :
    g.Ensures (work a) x fun _ _ => P := by
  intro hx
  obtain ⟨f, source, known⟩ := x
  simp only [work]
  cases a f with
  | ok b f =>
    obtain ⟨valid, le⟩ := kept (f := f) hx
    exact ⟨valid, le, h⟩
  | error fault f =>
    obtain ⟨valid, le⟩ := kept (f := f) hx
    exact ⟨valid, le, fails fault _⟩

/-! ## Shapes that are taken over -/

/-- A valid forest, a translator that reads what the leaves of `other` say, and for each node that
was taken over one of its shape. -/
structure Recoding.Valid (other : Forest) (x : Recoding) : Prop where
  forest : x.forest.Valid
  source : x.source.Speaks other.vocabulary
  known : ∀ n n', x.known[n]? = some n' → x.forest.Has n' (other.shape n)

/-- What was taken over has the shape that it had, and unless leaves lack words nothing fails but
that the numbers run out. -/
def Recoding.growth (other : Forest) : Growth Fault Recoding where
  valid := Recoding.Valid other
  le x y := x.forest.Extends y.forest
  fails fault x := x.forest.vocabulary.Includes other.vocabulary →
    Store.Exhausted fault x.forest.store
  refl x := .refl x.forest
  trans h h' := h.trans h'

theorem recodeLeaf_of_continues
    (goesOn : x.forest.vocabulary.continues x.source.vocabulary = true) :
    recodeLeaf n x = .ok n x := by
  rw [recodeLeaf, Attempt.get_bind, if_pos goesOn]
  rfl

theorem recodeLeaf_of_read {l : Leaf} {t : Translator}
    (other_words : ¬ x.forest.vocabulary.continues x.source.vocabulary = true)
    (run : Translator.decodeLeaf n x.source = .ok l t) :
    recodeLeaf n x =
      Recoding.work (translate (Translator.encodeLeaf l)) { x with source := t } := by
  rw [recodeLeaf, Attempt.get_bind, if_neg other_words, bind_eq_of_ok (Recoding.read_of_ok run)]

/-- What becomes of a leaf that was not taken over before is noted. -/
theorem recodeWithin_of_recodeLeaf (other : Forest) (fuel : Nat) {y : Recoding}
    (not_constant : n.isConstant = false) (not_combined : n.isCombined = false)
    (new : x.known[n]? = none) (leaf : recodeLeaf n x = .ok n' y) :
    recodeWithin other (fuel + 1) n x = .ok n' { y with known := y.known.insert n n' } := by
  rw [recodeWithin, if_neg (Bool.eq_false_iff.1 not_constant), Attempt.get_bind, new,
    Node.connective?_eq_none_iff.2 not_combined]
  simp only
  rw [bind_eq_of_ok leaf]
  rfl

/-- A leaf that was not taken over before is taken over as the code that it has, and noted. -/
theorem exists_recodeWithin_leaf (other : Forest) (fuel : Nat) {w : Vocabulary} {l : Leaf}
    (hf : x.forest.translator.Faithful) (hx : x.source.Speaks w)
    (other_words : x.forest.vocabulary.continues w = false) (code : w.Codes l n)
    (code' : x.forest.vocabulary.Codes l n') (new : x.known[n]? = none) :
    ∃ t u, recodeWithin other (fuel + 1) n x =
        .ok n' ⟨{ x.forest with translator := t }, u, x.known.insert n n'⟩ ∧
      t.Faithful ∧ t.vocabulary = x.forest.vocabulary ∧ u.Speaks w := by
  obtain ⟨u, read, speaks⟩ := hx.decodeLeaf code
  obtain ⟨t, run, faithful, same⟩ := Translator.encodeLeaf_of_codes hf code'
  refine ⟨t, u, ?_, faithful, same, speaks⟩
  rw [← hx.vocabulary_eq] at other_words
  have leaf : recodeLeaf n x = .ok n' ⟨{ x.forest with translator := t }, u, x.known⟩ := by
    rw [recodeLeaf_of_read (Bool.eq_false_iff.1 other_words) read]
    exact Recoding.work_of_ok (translate_eq_ok run)
  exact recodeWithin_of_recodeLeaf other fuel (Node.not_isConstant_of_isLeaf code.isLeaf)
    (Node.not_isCombined_of_isLeaf code.isLeaf) new leaf

/-- A combined node that was not taken over before becomes what joins its members, once they are
taken over. -/
theorem recodeWithin_combined {k : Connective} {fuel : Nat} {ms ms' : List Node} {y : Recoding}
    {s : Store} (hk : n.connective? = some k) (read : other.store.members n = .ok ms)
    (new : x.known[n]? = none) (each : ms.mapM (recodeWithin other fuel) x = .ok ms' y)
    (joined : y.forest.store.combine k ms' = .ok (n', s)) :
    recodeWithin other (fuel + 1) n x =
      .ok n' ⟨{ y.forest with store := s }, y.source, y.known.insert n n'⟩ := by
  have not_constant := Node.not_isConstant_of_isCombined (Node.isCombined_of_connective? hk)
  have run : Build.combine k ms' y.forest.store = .ok n' s := by rw [Build.combine, joined]
  have built : Recoding.work (build (Build.combine k ms')) y =
      .ok n' ⟨{ y.forest with store := s }, y.source, y.known⟩ :=
    Recoding.work_of_ok (build_eq_ok run)
  rw [recodeWithin, if_neg (Bool.eq_false_iff.1 not_constant), Attempt.get_bind, new, hk]
  simp only
  rw [read]
  show (ms.mapM (recodeWithin other fuel) >>= fun ms' =>
    Recoding.work (build (Build.combine k ms')) >>= fun n' => do
      Recoding.note n n'
      return n') x = _
  rw [bind_eq_of_ok each, bind_eq_of_ok built]
  rfl

namespace Recoding

theorem valid_start (hf : f.Valid) (ho : other.Valid) : Recoding.Valid other (start f other) where
  forest := hf
  source := ⟨ho.translator, rfl⟩
  known n n' found := by simp [start] at found

/-- What was taken over is there in a forest that was built on. -/
theorem Valid.extend (hx : x.Valid other) (valid : f.Valid) (le : x.forest.Extends f) :
    Recoding.Valid other ⟨f, x.source, x.known⟩ :=
  ⟨valid, hx.source, fun n n' found => (hx.known n n' found).stable hx.forest le⟩

theorem ensures_note (h : x.forest.Has n' (other.shape n)) :
    (growth other).Ensures (note n n') x fun _ _ => True := by
  rintro ⟨valid, source, known⟩
  exact ⟨⟨valid, source, forall_insert known h⟩, .refl x.forest, trivial⟩

/-- A combined node has the shape that it had if its members do. -/
theorem ensures_combine {k : Connective} {ms ms' : List Node} (ho : other.Valid)
    (hn : other.ValidNode n) (hk : n.connective? = some k)
    (hms : other.store.list? n.number = some ms)
    (each : List.Forall₂ (fun m m' => x.forest.Has m' (other.shape m)) ms ms') :
    (growth other).Ensures (work (build (Build.combine k ms'))) x fun n' x =>
      x.forest.Has n' (other.shape n) := by
  obtain ⟨⟨t, s, roots⟩, source, known⟩ := x
  obtain ⟨valid, shapes⟩ := Has.shapes_eq each
  have shape : other.shape n = Shape.join k (other.store.shapes other.vocabulary ms) :=
    Store.shape_of_combine ho.store (ho.store.members _ _ hms)
      (Store.combine_eq_self ho.store hn hk hms)
  have built := Store.ensures_combine_shape (k := k) valid
  refine built.lift (fun s => ⟨⟨t, s, roots⟩, source, known⟩) id ?_ (fun hx => hx.forest.store)
    (fun hx s' valid le => ?_) (fun _ _ _ exhausted _ => exhausted)
    (fun n' s' _ _ h => ⟨h.1, ?_⟩)
  · simp only [work, build]
    cases Build.combine k ms' s <;> rfl
  · have le : Extends ⟨t, s, roots⟩ ⟨t, s', roots⟩ := ⟨rfl, le, rfl⟩
    have grown : Forest.Valid ⟨t, s', roots⟩ :=
      ⟨valid, hx.forest.translator,
        fun n hn => validNode_of_extends le (hx.forest.roots n hn)⟩
    exact ⟨hx.extend grown le, le⟩
  · rw [shape]
    exact h.2.trans (congrArg (Shape.join k) shapes)

theorem ensures_leaf (code : other.vocabulary.Encodes n) :
    (growth other).Ensures (recodeLeaf n) x fun n' x => x.forest.Has n' (other.shape n) := by
  intro hx
  have hx : x.Valid other := hx
  obtain ⟨l, code⟩ := Vocabulary.encodes_iff.1 code
  by_cases goesOn : x.forest.vocabulary.continues x.source.vocabulary = true
  · rw [recodeLeaf_of_continues goesOn]
    rw [hx.source.vocabulary_eq] at goesOn
    have within := Vocabulary.within_of_continues goesOn
    exact ⟨hx, .refl x.forest, has_of_codes code (within.codes code)⟩
  · obtain ⟨t, run, speaks⟩ := hx.source.decodeLeaf code
    have read : Recoding.Valid other { x with source := t } := { hx with source := speaks }
    have encoded : Forest.growth.Ensures (translate (Translator.encodeLeaf l)) x.forest _ :=
      ensures_translate Translator.ensures_encodeLeaf
    rw [recodeLeaf_of_read goesOn run]
    simp only [work]
    cases h : translate (Translator.encodeLeaf l) x.forest with
    | ok n' g =>
      obtain ⟨hg, le, code'⟩ := encoded.of_ok hx.forest h
      exact ⟨read.extend hg le, le, has_of_codes code code'⟩
    | error fault g =>
      obtain ⟨hg, le, -⟩ := encoded.of_error hx.forest h
      refine ⟨read.extend hg le, le, fun includes => ?_⟩
      obtain ⟨n', code'⟩ := includes l n code
      rw [show g.vocabulary = x.forest.vocabulary from le.vocabulary_eq] at code'
      obtain ⟨u, run, -⟩ := Translator.encodeLeaf_of_codes hx.forest.translator code'
      rw [translate_eq_ok run] at h
      cases h

/-- What is taken over in `other` is shape for shape what it was. -/
theorem carries_shape (ho : other.Valid) :
    Carries other (growth other) fun n n' x => x.forest.Has n' (other.shape n) where
  stable _ _ _ _ hx le h := h.stable hx.forest le
  constant {n x} hn := by
    rcases Node.isConstant_iff.1 hn with rfl | rfl
    · exact .ofConstant .all
    · exact .ofConstant .none
  found hx found := hx.known _ _ found
  note h := ensures_note h
  combine hn hk hms each := ensures_combine ho hn hk hms each
  leaf code := ensures_leaf code

end Recoding

theorem recode_eq (other : Forest) (n : Node) (f : Forest) :
    recode other n f = match recodeWithin other other.nesting n (.start f other) with
      | .ok n' x => .ok n' x.forest
      | .error fault x => .error fault x.forest := by
  simp only [recode, takeOver]
  cases recodeWithin other other.nesting n (.start f other) <;> rfl

/-- What is taken over has the shape that it had. -/
theorem ensures_recode_shape (ho : other.Valid) (hn : other.ValidNode n) :
    growth.Ensures (recode other n) f fun n' f => f.Has n' (other.shape n) := by
  have taken := (Recoding.carries_shape ho).ensures_recodeWithin (x := .start f other) ho hn
    hn.level_lt_nesting
  refine taken.lift Recoding.forest id ?_ (fun hf => Recoding.valid_start hf ho)
    (fun _ x valid le => ⟨valid.forest, le⟩) (fun _ _ _ _ => trivial) (fun _ _ _ _ h => h)
  rw [recode_eq]
  cases recodeWithin other other.nesting n (.start f other) <;> rfl

/-- What is taken over means what it did. -/
theorem ensures_recode (ho : other.Valid) (hn : other.ValidNode n) :
    growth.Ensures (recode other n) f fun n' f => f.Means r n' (other.holds r n) :=
  (ensures_recode_shape ho hn).mono fun _ _ hf _ h => h.means ho hn hf

/-! ## Merging -/

/-- The forest over the words of both, before any node is taken over. -/
theorem Valid.merged {t : Translator} (hf : f.Valid)
    (ht : f.translator.merge other.translator = .ok t) :
    Valid { f with translator := t } ∧ f.vocabulary.merge other.vocabulary = .ok t.vocabulary := by
  obtain ⟨faithful, within⟩ := hf.translator.merge ht
  refine ⟨⟨hf.store.within within, faithful, fun n hn => (hf.roots n hn).within within⟩, ?_⟩
  rcases Translator.merge_cases f.translator other.translator with ⟨u, run, words⟩ | ⟨_, run, -⟩
  · rw [ht] at run
    cases run
    exact words
  · rw [ht] at run
    cases run

theorem merge_of_merged {t : Translator} (ht : f.translator.merge other.translator = .ok t) :
    f.merge other = match other.roots.mapM (recodeWithin other other.nesting)
        (.start { f with translator := t } other) with
      | .ok ns x => .ok { x.forest with roots := f.roots ++ ns }
      | .error fault _ => .error fault := by
  simp only [merge, mergeWith, ht]
  cases other.roots.mapM (recodeWithin other other.nesting)
    (.start { f with translator := t } other) <;> rfl

/-- Where all roots of the other forest are taken over, the forests are merged. -/
theorem merge_of_recodeAll {t : Translator} {ns : List Node}
    (ht : f.translator.merge other.translator = .ok t)
    (run : other.roots.mapM (recodeWithin other other.nesting)
      (.start { f with translator := t } other) = .ok ns x) :
    f.merge other = .ok { x.forest with roots := f.roots ++ ns } := by
  rw [merge_of_merged ht, run]

theorem merge_of_error {fault : Fault} (ht : f.translator.merge other.translator = .error fault) :
    f.merge other = .error fault := by
  simp only [merge, mergeWith, ht]

/-- A merged forest has the words of both, the lists and the roots of the first, and roots of the
shapes that those of the second have. -/
theorem merge_shape (hf : f.Valid) (ho : other.Valid) (h : f.merge other = .ok g) :
    g.Valid ∧ f.vocabulary.merge other.vocabulary = .ok g.vocabulary ∧
      f.store.Extends g.store ∧ ∃ ns, g.roots = f.roots ++ ns ∧
        List.Forall₂ (fun n n' => g.Has n' (other.shape n)) other.roots ns := by
  rcases Translator.merge_cases f.translator other.translator with ⟨t, ht, -⟩ | ⟨fault, ht, -⟩
  swap
  · rw [merge_of_error ht] at h
    cases h
  obtain ⟨start, vocabulary⟩ := hf.merged ht
  have within := Vocabulary.within_merge vocabulary
  rw [merge_of_merged ht] at h
  split at h
  · next ns x run =>
    cases h
    obtain ⟨⟨valid, -, -⟩, le, each⟩ :=
      ((Recoding.carries_shape ho).ensures_recodeAll ho ho.roots).of_ok
        (Recoding.valid_start start ho) run
    refine ⟨valid.withRoots fun n hn => ?_, ?_, le.store, ns, rfl, ?_⟩
    · rcases List.mem_append.1 hn with hn | hn
      · exact validNode_of_extends le ((hf.roots n hn).within within)
      · obtain ⟨m, -, h⟩ := exists_of_mem_forall₂ each hn
        exact h.valid
    · show f.vocabulary.merge other.vocabulary = .ok x.forest.vocabulary
      rw [le.vocabulary_eq]
      exact vocabulary
    · exact each.imp fun n n' h => ⟨h.valid, h.shape_eq⟩
  · cases h

/-- A merged forest has the words, the lists and the roots of the first, and roots that mean what
those of the second do. -/
theorem merge_eq_ok (hf : f.Valid) (ho : other.Valid) (h : f.merge other = .ok g) :
    g.Valid ∧ f.vocabulary.Within g.vocabulary ∧ f.store.Extends g.store ∧
      ∃ ns, g.roots = f.roots ++ ns ∧
        ∀ r, List.Forall₂ (fun n n' => g.holds r n' = other.holds r n) other.roots ns := by
  obtain ⟨hg, vocabulary, le, ns, roots, each⟩ := merge_shape hf ho h
  refine ⟨hg, Vocabulary.within_merge vocabulary, le, ns, roots, fun r => ?_⟩
  exact forall₂_imp_of_mem each fun n hn n' h => (h.means ho (ho.roots n hn) hg).holds

/-- The nodes of the first forest mean in a merged one what they meant. -/
theorem holds_of_within (hf : f.Valid) (within : f.vocabulary.Within g.vocabulary)
    (le : f.store.Extends g.store) (hn : f.ValidNode n) : g.holds r n = f.holds r n :=
  Store.holds_of_list? hf.store (fun _ code => within.holds_eq code r) le.list? hn

end Forest

end Criteria
