import Criteria.Proofs.Dangling
import Criteria.Proofs.Recall

/-!
# Where members that dangle come from

Sessions in which any nodes are handed in: nodes of other forests, nodes that were swept away, and
codes that stand for nothing.

**Theorem (`dangling_members_handed_in`).** A member of a list that is there dangles only if it was
handed in, already dangling, to be joined by the other connective.

The strays of a forest are kept beside it (`Forest.Handled`), and each request keeps what the strays
account for (`Request.grounded_perform`). Planting and taking over build from the leaves up, so all
that can go wrong there is that a leaf is translated to a combined node, and none is remembered as
one (`Translator.Plain`). Sweeping keeps all that can be reached, so no member that stays loses its
list.
-/

namespace Criteria

/-! ## What is remembered -/

namespace Translator

variable {t u : Translator} {l : Leaf} {n : Node}

/-- No leaf is remembered as a combined node. -/
def Plain (t : Translator) : Prop :=
  ∀ (l : Leaf) (n : Node), t.encoded.results[l]? = some n → n.isCombined = false

theorem plain_ofVocabulary (v : Vocabulary) : (ofVocabulary v).Plain := by
  intro l n found
  simp [ofVocabulary, Memo.empty] at found

theorem Plain.of_results (h : t.Plain) (same : u.encoded.results = t.encoded.results) :
    u.Plain := fun l n found => h l n (same ▸ found)

theorem Plain.remember (h : t.Plain) (hn : n.isCombined = false) : (t.remember l n).Plain := by
  intro l' n' found
  change (t.encoded.results.insert l n)[l']? = some n' at found
  rw [Std.HashMap.getElem?_insert] at found
  split at found
  · cases found
    exact hn
  · exact h l' n' found

/-- Translators that remember no leaf as a combined node change in any way. -/
def plainly : Growth Fault Translator where
  valid := Plain
  le _ _ := True
  fails _ _ := True
  refl _ := trivial
  trans _ _ := trivial

theorem ensures_plain_encodeLeaf :
    plainly.Ensures (encodeLeaf l) t fun n _ => n.isCombined = false := by
  intro ht
  cases found : t.encoded.results[l]? with
  | some n =>
    rw [encodeLeaf_of_found found]
    exact ⟨ht.of_results rfl, trivial, ht l n found⟩
  | none =>
    rw [encodeLeaf_of_none found]
    cases code : t.vocabulary.encodeLeaf l with
    | ok n =>
      have plain := Node.not_isCombined_of_isLeaf (Vocabulary.codes_of_encodeLeaf code).isLeaf
      exact ⟨Plain.remember (ht.of_results rfl) plain, trivial, plain⟩
    | error fault => exact ⟨ht.of_results rfl, trivial, trivial⟩

/-- A code that is read as a leaf is not combined, even if no leaf is coded like that. -/
theorem ensures_plain_decodeLeaf : plainly.Ensures (decodeLeaf n) t fun _ _ => True := by
  intro ht
  cases hop : n.leafOperator with
  | error fault =>
    rw [decodeLeaf_of_fault hop]
    exact ⟨ht, trivial, trivial⟩
  | ok op =>
    cases found : t.decoded.results[n]? with
    | some l =>
      rw [decodeLeaf_of_found hop found]
      exact ⟨ht.of_results rfl, trivial, trivial⟩
    | none =>
      rw [decodeLeaf_of_none hop found]
      cases t.vocabulary.decodeLeaf n with
      | ok l =>
        have plain := Node.not_isCombined_of_isLeaf (Node.isLeaf_of_leafOperator hop)
        exact ⟨Plain.remember (ht.of_results rfl) plain, trivial, trivial⟩
      | error fault => exact ⟨ht.of_results rfl, trivial, trivial⟩

theorem ensures_plain_decode : plainly.Ensures (decode n) t fun _ _ => True := by
  unfold decode
  split
  · exact .pure fun _ => trivial
  split
  · exact .pure fun _ => trivial
  · exact ensures_plain_decodeLeaf.bind fun _ _ _ _ _ => .pure fun _ => trivial

end Translator

/-- Where any failure may be, a computation without a state has its own outcome. -/
theorem Growth.Ensures.ofExcept_eq {ε σ α : Type} {g : Growth ε σ} {x : Except ε α} {s : σ}
    (fails : ∀ e s, g.fails e s) : g.Ensures (Criteria.ofExcept x) s fun a _ => x = .ok a := by
  cases x with
  | ok a => exact .pure fun _ => rfl
  | error e => exact .throw fun _ => fails e s

namespace Forest

variable {f g other : Forest} {n : Node} {strays : List Node} {α : Type}

/-! ## Grounded forests -/

/-- No leaf is remembered as a combined node, and no member dangles unless it is on a list. -/
structure Grounded (strays : List Node) (f : Forest) : Prop where
  translator : f.translator.Plain
  store : f.store.Grounded strays

/-- Grounded forests grow by lists. -/
def grounding (strays : List Node) : Growth Fault Forest where
  valid := Grounded strays
  le f g := f.store.Extends g.store
  fails _ _ := True
  refl f := .refl f.store
  trans h h' := h.trans h'

theorem ensures_grounded_translate {x : Attempt Translator α} {P : α → Prop}
    (h : Translator.plainly.Ensures x f.translator fun a _ => P a) :
    (grounding strays).Ensures (translate x) f fun a _ => P a := by
  obtain ⟨t, s, roots⟩ := f
  refine h.lift (⟨·, s, roots⟩) id ?_ (·.translator)
    (fun hf t' ht _ => ⟨⟨ht, hf.store⟩, .refl s⟩) (fun _ _ _ _ => trivial) (fun _ _ _ _ h => h)
  simp only [translate]
  cases x t <;> rfl

theorem ensures_grounded_build {x : Build α} {Q : α → Store → Prop}
    (h : (Store.within (Store.Grounded strays)).Ensures x f.store Q) :
    (grounding strays).Ensures (build x) f fun a g => Q a g.store := by
  obtain ⟨t, s, roots⟩ := f
  refine h.lift (⟨t, ·, roots⟩) id ?_ (·.store)
    (fun hf s' hs le => ⟨⟨hf.translator, hs⟩, le⟩) (fun _ _ _ _ => trivial) (fun _ _ _ _ h => h)
  simp only [build]
  cases x s <;> rfl

mutual

theorem ensures_backed_encode (e : Expression) (f : Forest) :
    (grounding strays).Ensures (encode e) f fun n g => g.store.Backed strays n := by
  match e with
  | .constant c =>
    rw [encode]
    have constant : (Node.ofConstant c).isConstant = true := by cases c <;> decide
    exact .pure fun _ => .of_not_isCombined (Node.not_isCombined_of_isConstant constant)
  | .leaf l =>
    rw [encode]
    exact (ensures_grounded_translate Translator.ensures_plain_encodeLeaf).mono
      fun n g _ _ plain => .of_not_isCombined plain
  | .combined k es =>
    rw [encode]
    exact (ensures_backed_encodeAll es f).bind fun ns g _ _ each =>
      ensures_grounded_build ((Store.compositional_backed strays).ensures_combine each)

theorem ensures_backed_encodeAll (es : List Expression) (f : Forest) :
    (grounding strays).Ensures (encodeAll es) f fun ns g =>
      ∀ n ∈ ns, g.store.Backed strays n := by
  match es with
  | [] =>
    rw [encodeAll]
    exact .pure fun _ => by simp
  | e :: es =>
    rw [encodeAll]
    refine (ensures_backed_encode e f).bind fun n g _ _ head => ?_
    refine (ensures_backed_encodeAll es g).bind fun ns h _ le tail => .pure fun _ => ?_
    exact List.forall_mem_cons.2 ⟨head.mono le, tail⟩

end

theorem ensures_plain_expressWithin {s : Store} {t : Translator} (fuel : Nat) :
    Translator.plainly.Ensures (expressWithin s fuel n) t fun _ _ => True := by
  induction fuel generalizing n t with
  | zero => exact .throw fun _ => trivial
  | succ fuel ih =>
    rw [expressWithin]
    split
    · exact Translator.ensures_plain_decode
    · refine (Growth.Ensures.ofExcept_eq fun _ _ => trivial).bind fun ms u _ _ _ => ?_
      have each : Translator.plainly.Ensures (ms.mapM (expressWithin s fuel)) u
          fun es _ => ∀ e ∈ es, True :=
        .forall_mapM (fun _ _ _ _ _ _ => trivial) fun _ _ _ => ih
      exact each.bind fun _ _ _ _ _ => .pure fun _ => trivial

theorem ensures_grounded_express :
    (grounding strays).Ensures (express n) f fun _ _ => True :=
  (ensures_grounded_translate (ensures_plain_expressWithin _)).of_run_eq rfl

/-! ## Taking over -/

namespace Recoding

variable {x : Recoding}

/-- Grounded forests grow by lists, and what was taken over does not dangle. -/
def grounding (strays : List Node) : Growth Fault Recoding where
  valid x := x.forest.Grounded strays ∧
    ∀ n n' : Node, x.known[n]? = some n' → x.forest.store.Backed strays n'
  le x y := x.forest.store.Extends y.forest.store
  fails _ _ := True
  refl x := .refl x.forest.store
  trans h h' := h.trans h'

theorem grounded_start (hf : f.Grounded strays) : (grounding strays).valid (start f other) :=
  ⟨hf, fun n n' found => by simp [start] at found⟩

theorem ensures_grounded_work {y : Attempt Forest Node}
    (h : (Forest.grounding strays).Ensures y x.forest fun n f => f.store.Backed strays n) :
    (grounding strays).Ensures (work y) x fun n x => x.forest.store.Backed strays n := by
  obtain ⟨f, source, known⟩ := x
  refine h.lift (⟨·, source, known⟩) id ?_ (·.1) (fun hx g hg le => ⟨⟨hg, fun n n' found => ?_⟩, le⟩)
    (fun _ _ _ _ => trivial) (fun _ _ _ _ h => h)
  · simp only [work]
    cases y f <;> rfl
  · exact (hx.2 n n' found).mono le

theorem ensures_grounded_read {y : Attempt Translator α} :
    (grounding strays).Ensures (read y) x fun _ _ => True := by
  intro hx
  obtain ⟨f, source, known⟩ := x
  simp only [read]
  cases y source with
  | ok a t => exact ⟨hx, .refl f.store, trivial⟩
  | error fault t => exact ⟨hx, .refl f.store, trivial⟩

theorem ensures_backed_recodeLeaf (hn : n.connective? = none) :
    (grounding strays).Ensures (recodeLeaf n) x fun n' x => x.forest.store.Backed strays n' := by
  unfold recodeLeaf
  refine (Growth.Ensures.get (R := fun _ _ => True) fun _ => trivial).bind fun _ y _ _ _ => ?_
  split
  · exact .pure fun _ => .of_not_isCombined (Node.connective?_eq_none_iff.1 hn)
  · refine ensures_grounded_read.bind fun l y _ _ _ => ensures_grounded_work ?_
    exact (ensures_grounded_translate Translator.ensures_plain_encodeLeaf).mono
      fun _ _ _ _ plain => .of_not_isCombined plain

theorem ensures_backed_recodeWithin (fuel : Nat) :
    (grounding strays).Ensures (recodeWithin other fuel n) x fun n' x =>
      x.forest.store.Backed strays n' := by
  induction fuel generalizing n x with
  | zero => exact .throw fun _ => trivial
  | succ fuel ih =>
    rw [recodeWithin]
    split
    · next constant =>
      exact .pure fun _ => .of_not_isCombined (Node.not_isCombined_of_isConstant constant)
    refine (Growth.Ensures.get (R := fun x y => x = y) fun _ => rfl).bind fun _ x _ _ same => ?_
    subst same
    split
    · next found => exact .pure fun hx => hx.2 _ _ found
    have noted : ∀ {y : Recoding} {n' : Node}, y.forest.store.Backed strays n' →
        (grounding strays).Ensures (do Recoding.note n n'; return n') y fun n' x =>
          x.forest.store.Backed strays n' := fun backed hy =>
      ⟨⟨hy.1, fun _ => forall_insert (fun _ => hy.2 _) backed _⟩, .refl _, backed⟩
    split
    · refine (Growth.Ensures.ofExcept_eq fun _ _ => trivial).bind fun ms y _ _ _ => ?_
      have each : (grounding strays).Ensures (ms.mapM (recodeWithin other fuel)) y
          fun ms' y => ∀ m' ∈ ms', y.forest.store.Backed strays m' :=
        .forall_mapM (fun _ _ _ _ le h => h.mono le) fun _ _ _ => ih
      refine each.bind fun ms' z _ _ backed => (ensures_grounded_work ?_).bind
        fun n' u _ _ backed => noted backed
      exact ensures_grounded_build ((Store.compositional_backed strays).ensures_combine backed)
    · next hn =>
      exact (ensures_backed_recodeLeaf hn).bind fun n' u _ _ backed => noted backed

end Recoding

theorem ensures_grounded_recode :
    (grounding strays).Ensures (recode other n) f fun _ _ => True := by
  have taken : (Recoding.grounding strays).Ensures (recodeWithin other other.nesting n)
      (.start f other) _ :=
    Recoding.ensures_backed_recodeWithin _
  refine taken.lift Recoding.forest id ?_ Recoding.grounded_start
    (fun _ _ hx le => ⟨hx.1, le⟩) (fun _ _ _ _ => trivial) (fun _ _ _ _ _ => trivial)
  rw [recode_eq]
  cases recodeWithin other other.nesting n (.start f other) <;> rfl

theorem Grounded.merge (hf : f.Grounded strays) (h : f.merge other = .ok g) :
    g.Grounded strays := by
  rcases Translator.merge_cases f.translator other.translator with ⟨t, ht, -⟩ | ⟨fault, ht, -⟩
  swap
  · rw [merge_of_error ht] at h
    cases h
  have plain : t.Plain := by
    obtain ⟨v, -, eq⟩ := bind_eq_ok_iff.1 ht
    cases eq
    exact hf.translator.of_results rfl
  have taken : (Recoding.grounding strays).Ensures
      (other.roots.mapM (recodeWithin other other.nesting))
      (.start { f with translator := t } other)
        fun ns x => ∀ n ∈ ns, x.forest.store.Backed strays n :=
    .forall_mapM (fun _ _ _ _ le h => h.mono le) fun _ _ _ =>
      Recoding.ensures_backed_recodeWithin _
  rw [merge_of_merged ht] at h
  split at h
  · next run =>
    cases h
    obtain ⟨⟨grounded, -⟩, -⟩ :=
      taken.of_ok (Recoding.grounded_start ⟨plain, hf.store⟩) run
    exact ⟨grounded.translator, grounded.store⟩
  · cases h

/-! ## Passes on a forest -/

/-- Runs grow grounded forests by lists. -/
def Run.grounding (strays : List Node) : Growth Failure (Forest × Budget) where
  valid s := s.1.Grounded strays
  le s t := s.1.store.Extends t.1.store
  fails _ _ := True
  refl s := .refl s.1.store
  trans h h' := h.trans h'

theorem ensures_grounded_run {x : Pass α} {budget : Budget} {Q : α → Work → Prop}
    (h : (Work.within (Store.Grounded strays)).Ensures x ⟨f.store, budget⟩ Q) :
    (Run.grounding strays).Ensures (run x) (f, budget) fun _ _ => True := by
  obtain ⟨t, s, roots⟩ := f
  refine h.lift (fun w => (⟨t, w.store, roots⟩, w.budget)) id ?_
    (fun hf => Grounded.store hf) (fun hf w hw le => ?_) (fun _ _ _ _ => trivial)
    (fun _ _ _ _ _ => trivial)
  · simp only [run]
    cases x ⟨s, budget⟩ <;> rfl
  · have hf : Grounded strays ⟨t, s, roots⟩ := hf
    exact ⟨⟨hf.translator, hw⟩, le⟩

theorem ensures_grounded_mapRoots {x : Node → Pass Node} (hx : Pass.KeepsGround strays x)
    {budget : Budget} :
    (Run.grounding strays).Ensures (mapRoots x) (f, budget) fun _ _ => True := by
  have each : (Work.within (Store.Grounded strays)).Ensures (f.roots.mapM x) ⟨f.store, budget⟩
      fun ns _ => ∀ n ∈ ns, True :=
    .forall_mapM (fun _ _ _ _ _ _ => trivial) fun n _ w => hx w n
  intro hf
  rw [mapRoots_eq]
  cases run' : run (f.roots.mapM x) (f, budget) with
  | ok ns s =>
    obtain ⟨grounded, le, -⟩ := (ensures_grounded_run each).of_ok hf run'
    exact ⟨⟨grounded.translator, grounded.store⟩, le, trivial⟩
  | error failure s => exact (ensures_grounded_run each).of_error hf run'

theorem Grounded.sweep (hf : f.Grounded strays) : f.sweep.2.Grounded strays :=
  ⟨hf.translator, hf.store.sweep⟩

theorem Grounded.sweepAbove (hf : f.Grounded strays) (threshold : Nat) :
    (f.sweepAbove threshold).2.Grounded strays := by
  rcases sweepAbove_cases f threshold with eq | eq
  · rw [eq]
    exact hf
  · rw [eq]
    exact hf.sweep

end Forest

/-! ## Requests -/

theorem Rewriting.keepsGround_pass {strays : List Node} (x : Rewriting) :
    Pass.KeepsGround strays x.pass := by
  cases x with
  | prune => exact Pass.keepsGround_prune
  | distribute cleanup => exact Pass.keepsGround_distribute cleanup
  | factor => exact Pass.keepsGround_factor

theorem Reply.grounded_of {ε σ α : Type} {g : Growth ε σ} {x : EStateM ε σ α} {s : σ}
    {forest : σ → Forest} {nodes : α → List Node} {Q : α → σ → Prop} {strays : List Node}
    (h : g.Ensures x s Q) (hs : g.valid s)
    (grounded : ∀ t, g.valid t → (forest t).Grounded strays) :
    (Reply.of forest nodes (x s)).forest.Grounded strays := by
  cases run : x s with
  | ok a t => exact grounded t (h.of_ok hs run).1
  | error e t => exact grounded t (h.of_error hs run).1

namespace Request

/-- The members that dangle and that joining is asked for without looking them up. -/
def strays (f : Forest) : Request → List Node
  | combine k members => members.filter fun m => f.store.dangles m && m.connective? ≠ some k
  | _ => []

/-- Of what is asked for with any nodes, only joining brings in members that dangle. -/
theorem grounded_perform {f : Forest} {strays : List Node} (request : Request)
    (hf : f.Grounded strays) :
    (request.perform f).forest.Grounded (request.strays f ++ strays) := by
  cases request with
  | plant e => exact Reply.grounded_of (Forest.ensures_backed_encode e f) hf fun _ h => h
  | combine k members =>
    have backed : ∀ m ∈ members, m.connective? ≠ some k →
        f.store.Backed ((combine k members).strays f ++ strays) m := by
      intro m hm hk dangles
      refine List.mem_append_left _ (List.mem_filter.2 ⟨hm, ?_⟩)
      rw [dangles, Bool.true_and, decide_eq_true_eq]
      exact hk
    have hf : f.Grounded ((combine k members).strays f ++ strays) :=
      ⟨hf.translator, hf.store.of_subset (List.subset_append_right _ _)⟩
    exact Reply.grounded_of
      (Forest.ensures_grounded_build (Store.ensures_grounded_combine backed)) hf fun _ h => h
  | complement n =>
    exact Reply.grounded_of
      (Forest.ensures_grounded_build (Store.ensures_backed_complementWithin _)) hf fun _ h => h
  | knownCheck n =>
    exact Reply.grounded_of
      (Forest.ensures_grounded_build Store.ensures_backed_knownCheck) hf fun _ h => h
  | express n => exact Reply.grounded_of Forest.ensures_grounded_express hf fun _ h => h
  | rewrite x n budget =>
    exact Reply.grounded_of (Forest.ensures_grounded_run (x.keepsGround_pass _ n)) hf fun _ h => h
  | rewriteRoots x budget =>
    exact Reply.grounded_of (Forest.ensures_grounded_mapRoots x.keepsGround_pass) hf fun _ h => h
  | simplify cleanup housekeeping budget =>
    rw [perform, Forest.simplify_eq]
    exact Reply.grounded_of (Forest.ensures_grounded_mapRoots (Pass.keepsGround_simplify cleanup))
      (hf.sweepAbove housekeeping) fun _ h => h
  | setRoots roots => exact ⟨hf.translator, hf.store⟩
  | addRoot n => exact ⟨hf.translator, hf.store⟩
  | sweep => exact hf.sweep
  | sweepAbove threshold => exact hf.sweepAbove threshold

end Request

/-! ## Forests that are handled in any way -/

namespace Forest

/-- The forests that can be made by asking for anything with any nodes, each with the members that
dangled when they were handed in to be joined to others with the other connective. -/
inductive Handled : Forest → List Node → Prop
  | ofVocabulary (v : Vocabulary) : Handled (.ofVocabulary v) []
  | ofExpression {e : Expression} {f : Forest} : Forest.ofExpression e = .ok f → Handled f []
  | ofExpressions {es : List Expression} {f : Forest} :
      Forest.ofExpressions es = .ok f → Handled f []
  | ofTranslator {f : Forest} {strays : List Node} : Handled f strays →
      Handled ⟨f.translator, .empty Store.defaultThreshold, []⟩ []
  | merge {f g h : Forest} {strays strays' : List Node} : Handled f strays → Handled g strays' →
      f.merge g = .ok h → Handled h strays
  | recode {f g : Forest} {strays strays' : List Node} (n : Node) : Handled f strays →
      Handled g strays' → Handled (Reply.of id ([·]) (Forest.recode g n f)).forest strays
  | perform {f : Forest} {strays : List Node} (request : Request) : Handled f strays →
      Handled (request.perform f).forest (request.strays f ++ strays)

theorem grounded_ofVocabulary (v : Vocabulary) : (ofVocabulary v).Grounded [] :=
  ⟨Translator.plain_ofVocabulary v, Store.grounded_empty _⟩

theorem Handled.grounded {f : Forest} {strays : List Node} (h : f.Handled strays) :
    f.Grounded strays := by
  induction h with
  | ofVocabulary v => exact grounded_ofVocabulary v
  | @ofExpression e f planted =>
    unfold Forest.ofExpression at planted
    obtain ⟨v, -, planted⟩ := bind_eq_ok_iff.1 planted
    obtain ⟨⟨n, g⟩, run, planted⟩ := bind_eq_ok_iff.1 planted
    cases planted
    obtain ⟨grounded, -⟩ :=
      (ensures_backed_encode e _).of_ok (grounded_ofVocabulary v) (complete_eq_ok run)
    exact ⟨grounded.translator, grounded.store⟩
  | @ofExpressions es f planted =>
    unfold Forest.ofExpressions at planted
    obtain ⟨v, -, planted⟩ := bind_eq_ok_iff.1 planted
    obtain ⟨⟨ns, g⟩, run, planted⟩ := bind_eq_ok_iff.1 planted
    cases planted
    obtain ⟨grounded, -⟩ :=
      (ensures_backed_encodeAll es _).of_ok (grounded_ofVocabulary v) (complete_eq_ok run)
    exact ⟨grounded.translator, grounded.store⟩
  | ofTranslator _ ih => exact ⟨ih.translator, Store.grounded_empty _⟩
  | merge _ _ eq ih _ => exact ih.merge eq
  | recode n _ _ ih _ => exact Reply.grounded_of ensures_grounded_recode ih fun _ h => h
  | perform request _ ih => exact request.grounded_perform ih

end Forest

theorem Session.Usable.not_dangles {x : Session} {n : Node} (h : x.Usable n) :
    x.forest.store.dangles n = false := by
  cases h with
  | constant constant =>
    exact Store.not_dangles_of_not_isCombined (Node.not_isCombined_of_isConstant constant)
  | leaf code =>
    exact Store.not_dangles_of_not_isCombined (Node.not_isCombined_of_isLeaf code.isLeaf)
  | combined _ hl _ => exact Store.not_dangles_of_list? hl

/-- Nothing that dangles is handed in where only usable nodes are. -/
theorem Session.Reached.handled {x : Session} (h : x.Reached) : x.forest.Handled [] := by
  induction h with
  | ofVocabulary v => exact .ofVocabulary v
  | ofExpression planted => exact .ofExpression planted
  | ofExpressions planted => exact .ofExpressions planted
  | ofTranslator _ ih => exact .ofTranslator ih
  | merge _ _ eq ihx ihy => exact .merge ihx ihy eq
  | @recode x y n _ _ _ ihx ihy => exact .recode n ihx ihy
  | @perform x request _ usable ih =>
    have none : request.strays x.forest = [] := by
      cases request with
      | combine k members =>
        refine List.filter_eq_nil_iff.2 fun m hm => ?_
        rw [(usable m hm).not_dangles]
        exact Bool.false_ne_true
      | _ => rfl
    have next := ih.perform request
    rwa [none] at next

/-! ## What users may rely on -/

/-- If some members that have the connective dangle, joining fails with the fault of looking up one
of these and leaves the forest as it is. In whatever way a forest is handled, a member of a list
that is there dangles only if it was handed in, already dangling, to be joined by the other
connective. -/
theorem dangling_members_handed_in :
    (∀ (f : Forest) (k : Connective) (ms : List Node), .invalid ∉ ms →
      (∃ m ∈ ms, m.connective? = some k ∧ f.store.dangles m = true) →
      ∃ m ∈ ms, m.connective? = some k ∧ f.store.dangles m = true ∧
        Forest.build (Build.combine k ms) f = .error (f.store.absence m) f) ∧
    (∀ (strays : List Node) (f : Forest), f.Handled strays →
      ∀ id l, f.store.list? id = some l → ∀ m ∈ l, f.store.dangles m = true → m ∈ strays) := by
  refine ⟨?fails, fun strays f handled => handled.grounded.store⟩
  case fails =>
    rintro f k ms valid ⟨m, hm, hk, dangles⟩
    obtain ⟨m', hm', hk', dangles', eq⟩ := Store.exists_combine_eq_error valid hm hk dangles
    refine ⟨m', hm', hk', dangles', ?_⟩
    obtain ⟨t, s, roots⟩ := f
    simp only [Forest.build, Build.combine, eq]

namespace Sample

/-- The forest of the session in which the AND was built and, as it is no root, was swept away. -/
def emptied : Forest := ⟨.ofVocabulary vocabulary, (store.sweep []).2, []⟩

theorem reached_emptied : ∃ x : Session, x.Reached ∧ x.forest = emptied := by
  have start := Session.Reached.ofVocabulary vocabulary
  have usable : ∀ n ∈ [equal, known], (Session.start (.ofVocabulary vocabulary)).Usable n := by
    intro n hn
    rcases List.mem_pair.1 hn with rfl | rfl
    · exact .leaf (Vocabulary.encodes_iff.2 ⟨_, codes_equal⟩)
    · exact .leaf (Vocabulary.encodes_iff.2 ⟨_, codes_known⟩)
  exact ⟨_, (start.combine usable combine_eq).perform .sweep (by simp [Request.nodes]), rfl⟩

theorem list?_emptied (id : Nat) : emptied.store.list? id = none := by
  refine Store.list?_sweep_of_not_reaches fun reached => ?_
  induction reached with
  | root hn _ => cases hn
  | member _ _ _ _ ih => exact ih

theorem size_emptied : emptied.store.size = 1 := Store.size_sweep

theorem both_dangles : emptied.store.dangles both = true :=
  Store.dangles_iff.2 ⟨by decide, list?_emptied 0⟩

/-- The store in which the AND that was swept away is a member. -/
def strayedStore : Store := emptied.store.push [equal, both]
  (Store.find?_eq_none fun id _ hl => by rw [list?_emptied] at hl; cases hl)

/-- The forest with this store. -/
def strayed : Forest := { emptied with store := strayedStore }

theorem build_strayed :
    Forest.build (Build.combine .or [both, equal]) emptied = .ok (.combined .or 1) strayed := by
  have joined : emptied.store.combine .or [both, equal] =
      .ok (.combined .or emptied.store.size, strayedStore) :=
    Store.combine_of_new (by rfl) (by decide) (by decide) (by rw [size_emptied]; decide)
  rw [size_emptied] at joined
  exact Forest.build_eq_ok (by rw [Build.combine, joined])

theorem handled_strayed : strayed.Handled [both] := by
  obtain ⟨x, reached, eq⟩ := reached_emptied
  have next := reached.handled.perform (.combine .or [both, equal])
  have left : Request.strays emptied (.combine .or [both, equal]) = [both] := by
    have leaf : emptied.store.dangles equal = false :=
      Store.not_dangles_of_not_isCombined (by decide)
    have other : both.connective? ≠ some .or := by decide
    simp [Request.strays, both_dangles, leaf, other]
  rwa [eq, left, Request.perform, build_strayed] at next

/-- An AND that was swept away cannot be joined by AND. Joined by OR it becomes a member, and no
other member dangles. -/
theorem reclaimed_handed_in :
    Forest.build (Build.combine .and [both, equal]) emptied = .error (.reclaimed 0) emptied ∧
    strayed.Handled [both] ∧ ∀ id l, strayed.store.list? id = some l →
      ∀ m ∈ l, strayed.store.dangles m = true → m ∈ [both] := by
  obtain ⟨failing, strays⟩ := dangling_members_handed_in
  refine ⟨?_, handled_strayed, strays _ _ handled_strayed⟩
  obtain ⟨m, hm, hk, -, eq⟩ := failing emptied .and [both, equal] (by decide)
    ⟨both, List.mem_cons_self, by decide, both_dangles⟩
  rcases List.mem_pair.1 hm with rfl | rfl
  · rw [eq, Store.absence, size_emptied]
    rfl
  · cases hk

/-- An AND that was swept away is joined to a leaf by OR, and becomes a member that dangles. -/
theorem reclaimed_registered : (∃ x : Session, x.Reached ∧ x.forest = emptied) ∧
    .invalid ∉ [both, equal] ∧ emptied.store.dangles both = true ∧
    Forest.build (Build.combine .or [both, equal]) emptied = .ok (.combined .or 1) strayed ∧
    strayed.store.list? 1 = some [equal, both] ∧ strayed.store.dangles both = true := by
  have list (id : Nat) : strayed.store.list? id = if id = 1 then some [equal, both] else none := by
    rw [show strayed.store = strayedStore from rfl, strayedStore, Store.list?_push, size_emptied,
      list?_emptied]
  exact ⟨reached_emptied, by decide, both_dangles, build_strayed, list 1,
    Store.dangles_iff.2 ⟨by decide, list 0⟩⟩

end Sample

end Criteria
