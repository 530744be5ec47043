import Criteria.Proofs.Session
import Criteria.Proofs.Repetition.Distribution
import Criteria.Proofs.Repetition.Factoring

/-!
# Asking again

**Theorem (`Session.Reached.replay`).** Whatever adds to a forest, an expression that is planted,
nodes that are joined, a complement, a check of what is known, a pass or a node that is taken over,
leaves words, roots and threshold as they are and only adds lists, also where it fails. If it
returned a node, the forest that was left gives the same node for the same request and adds nothing
more, and so does every forest that has its words and lists, whatever lists it has besides.

What is built repeats, and what passes make of nodes repeats, as far as the store goes
(`Repetition.Repeats`). What is left is to carry this over to forests: a leaf has the same code
whatever the translator remembers, and taking over meets the nodes in the same order, so that the
same ones are known already.
-/

namespace Criteria

namespace Forest

variable {f g other : Forest} {n : Node} {α : Type}

/-! ## Forests -/

/-- Forests that have the words and lists of others, and translators that remember what is true. -/
def repetition : Repetition Forest where
  valid f := f.translator.Faithful
  le f g := g.vocabulary = f.vocabulary ∧ f.store.Extends g.store
  same _ g := g.translator.Faithful
  above f g := g.vocabulary = f.vocabulary ∧ f.store.Extends g.store
  follows _ f g := ∃ t, g = { f with translator := t } ∧ t.vocabulary = f.vocabulary
  refl f := ⟨rfl, .refl f.store⟩
  trans h h' := ⟨h'.1.trans h.1, h.2.trans h'.2⟩
  same_refl h := h
  above_refl f := ⟨rfl, .refl f.store⟩
  above_mono h h' := ⟨h'.1.trans h.1, h.2.trans h'.2⟩
  above_follows := by
    rintro _ f g _ - ⟨same, le⟩ ⟨t, rfl, same'⟩
    exact ⟨same'.trans same, le⟩
  follows_refl _ f := ⟨f.translator, rfl, rfl⟩
  follows_trans := by
    rintro _ _ f _ _ - ⟨t, rfl, same⟩ ⟨u, rfl, same'⟩
    exact ⟨u, rfl, same'.trans same⟩

theorem recurs_build {x : Build α} (h : Build.repetition.Recurs x) :
    repetition.Recurs (build x) := by
  rintro ⟨t, s, roots⟩ faithful a f run
  unfold build at run
  simp only at run
  split at run
  · next eq =>
    cases run
    obtain ⟨-, le, -, -⟩ := h s trivial a _ eq
    refine ⟨faithful, ⟨rfl, le⟩, trivial, fun g same above => ⟨g, ?_, same, g.translator, rfl, rfl⟩⟩
    exact build_eq_ok (Build.run_again h eq above.2)
  · cases run

theorem recurs_encodeLeaf (l : Leaf) : repetition.Recurs (translate (Translator.encodeLeaf l)) := by
  rintro ⟨t, s, roots⟩ faithful n f run
  unfold translate at run
  simp only at run
  split at run
  · next u eq =>
    cases run
    obtain ⟨faithful', kept, code⟩ := Translator.ensures_encodeLeaf.of_ok faithful eq
    refine ⟨faithful', ⟨kept, .refl s⟩, trivial, fun g same above => ?_⟩
    have words : g.vocabulary = u.vocabulary := above.1
    rw [← words] at code
    obtain ⟨u', again, faithful'', kept'⟩ := Translator.encodeLeaf_of_codes same code
    exact ⟨_, translate_eq_ok again, faithful'', u', rfl, kept'⟩
  · cases run

mutual

theorem recurs_encode (e : Expression) : repetition.Recurs (encode e) := by
  match e with
  | .constant c =>
    rw [encode]
    exact .pure (Node.ofConstant c)
  | .leaf l =>
    rw [encode]
    exact recurs_encodeLeaf l
  | .combined k es =>
    rw [encode]
    exact (recurs_encodeAll es).bind fun ns => recurs_build (Build.recurs_combine k ns)

theorem recurs_encodeAll (es : List Expression) : repetition.Recurs (encodeAll es) := by
  match es with
  | [] =>
    rw [encodeAll]
    exact .pure []
  | e :: es =>
    rw [encodeAll]
    exact (recurs_encode e).bind fun n => (recurs_encodeAll es).bind fun ns => .pure (n :: ns)

end

/-! ## Taking over -/

namespace Recoding

/-- Forests that take over, read with the same translator, and know of the same nodes what became of
them. -/
def repetition : Repetition Recoding where
  valid x := Forest.repetition.valid x.forest
  le x y := Forest.repetition.le x.forest y.forest
  same x y := Forest.repetition.same x.forest y.forest ∧ y.source = x.source ∧ y.known = x.known
  above x y := Forest.repetition.above x.forest y.forest
  follows x y y' := Forest.repetition.follows x.forest y.forest y'.forest
  refl x := Forest.repetition.refl x.forest
  trans := Forest.repetition.trans
  same_refl h := ⟨Forest.repetition.same_refl h, rfl, rfl⟩
  above_refl x := Forest.repetition.above_refl x.forest
  above_mono := Forest.repetition.above_mono
  above_follows := Forest.repetition.above_follows
  follows_refl x y := Forest.repetition.follows_refl x.forest y.forest
  follows_trans := Forest.repetition.follows_trans

theorem recurs_work {x : Attempt Forest α} (h : Forest.repetition.Recurs x) :
    repetition.Recurs (work x) := by
  rintro ⟨f, source, known⟩ faithful a y run
  unfold work at run
  simp only at run
  split at run
  · next eq =>
    cases run
    obtain ⟨faithful', le, -, again⟩ := h f faithful a _ eq
    refine ⟨faithful', le, trivial, fun ⟨g, source', known'⟩ ⟨same, alike⟩ above => ?_⟩
    obtain ⟨g', run', same', follows⟩ := again g same above
    refine ⟨⟨g', source', known'⟩, ?_, ⟨same', alike⟩, follows⟩
    simp only [work, run']
  · cases run

theorem recurs_read (x : Attempt Translator α) : repetition.Recurs (read x) := by
  rintro ⟨f, source, known⟩ faithful a y run
  unfold read at run
  simp only at run
  split at run
  · next t eq =>
    cases run
    refine ⟨faithful, Forest.repetition.refl f, trivial,
      fun ⟨g, source', known'⟩ ⟨same, reads, knows⟩ _ => ?_⟩
    cases reads
    cases knows
    refine ⟨⟨g, t, known⟩, ?_, ⟨same, rfl, rfl⟩, Forest.repetition.follows_refl f g⟩
    simp only [read, eq]
  · cases run

theorem recurs_note (n n' : Node) : repetition.Recurs (note n n') := by
  rintro ⟨f, source, known⟩ faithful a y run
  cases run
  refine ⟨faithful, Forest.repetition.refl f, trivial,
    fun ⟨g, source', known'⟩ ⟨same, reads, knows⟩ _ => ?_⟩
  cases reads
  cases knows
  exact ⟨_, rfl, ⟨same, rfl, rfl⟩, Forest.repetition.follows_refl f g⟩

/-- A leaf is taken as it is wherever the words are the same, and else read and coded. -/
theorem recurs_recodeLeaf (n : Node) : repetition.Recurs (recodeLeaf n) := by
  intro x
  refine .look (Attempt.get_bind _ x) fun y same above => ⟨_, Attempt.get_bind _ y, ?_⟩
  rw [above.1, same.2.1]
  split
  · exact .pure (fun _ => trivial)
  · exact ((recurs_read _).bind fun l => recurs_work (recurs_encodeLeaf l)) x

theorem recurs_recodeWithin (other : Forest) (fuel : Nat) (n : Node) :
    repetition.Recurs (recodeWithin other fuel n) := by
  induction fuel generalizing n with
  | zero => exact .throw _
  | succ fuel ih =>
    rw [recodeWithin]
    split
    · exact .pure n
    have noted (n' : Node) : repetition.Recurs (do note n n'; return n') :=
      (recurs_note n n').bind fun _ => .pure n'
    intro x
    refine .look (Attempt.get_bind _ x) fun y same _ => ⟨_, Attempt.get_bind _ y, ?_⟩
    rw [same.2.2]
    cases x.known[n]? with
    | some n' => exact .pure fun _ => trivial
    | none =>
      cases n.connective? with
      | some k =>
        exact ((Repetition.Recurs.ofExcept _).bind fun ms => (Repetition.Recurs.mapM ih ms).bind
          fun ms' => (recurs_work (recurs_build (Build.recurs_combine k ms'))).bind noted) x
      | none => exact ((recurs_recodeLeaf n).bind noted) x

end Recoding

theorem recurs_recode (other : Forest) (n : Node) : repetition.Recurs (recode other n) := by
  intro f faithful n' f' run
  rw [recode_eq] at run
  split at run
  · next y eq =>
    cases run
    obtain ⟨faithful', le, -, again⟩ :=
      Recoding.recurs_recodeWithin other other.nesting n (.start f other) faithful n' y eq
    refine ⟨faithful', le, trivial, fun g same above => ?_⟩
    obtain ⟨z, run', ⟨same', -⟩, idle⟩ := again (.start g other) ⟨same, rfl, rfl⟩ above
    exact ⟨z.forest, by simp only [recode_eq, run'], same', idle⟩
  · cases run

/-! ## Replies -/

/-- A forest with the words and lists of `f`, and perhaps more lists, whose translator remembers
what is true. -/
structure Continuation (f g : Forest) : Prop where
  vocabulary_eq : g.vocabulary = f.vocabulary
  store : f.store.Extends g.store
  faithful : g.translator.Faithful

theorem continuation_withStore {s : Store} (faithful : f.translator.Faithful)
    (le : f.store.Extends s) : f.Continuation { f with store := s } := ⟨rfl, le, faithful⟩

/-- A reply gives a node again and adds nothing, wherever all is there that it left. -/
def Replays (perform : Forest → Reply) (f : Forest) : Prop :=
  ∀ n, (perform f).nodes = [n] → ∀ g, (perform f).forest.Continuation g →
    ∃ t, perform g = ⟨[n], { g with translator := t }⟩ ∧ t.vocabulary = g.vocabulary

theorem replays_of_recurs {x : Attempt Forest Node} (h : repetition.Recurs x)
    (faithful : f.translator.Faithful) : Replays (fun f => .of id ([·]) (x f)) f := by
  intro n returned g continues
  simp only at returned continues ⊢
  cases run : x f with
  | error fault f' =>
    rw [run] at returned
    cases returned
  | ok n' f' =>
    rw [run] at returned continues
    cases returned
    obtain ⟨-, -, -, again⟩ := h f faithful n f' run
    obtain ⟨_, run', -, t, rfl, same⟩ :=
      again g continues.faithful ⟨continues.vocabulary_eq, continues.store⟩
    exact ⟨t, by rw [run']; rfl, same⟩

theorem replays_run {x : Pass Node} {budget : Budget} {Q : Node → Work → Prop}
    (h : (Work.repetition f.vocabulary).Repeats x x ⟨f.store, budget⟩ Q)
    (hs : f.store.Valid f.vocabulary) :
    Replays (fun f => .of Prod.fst ([·]) (run x (f, budget))) f := by
  intro n returned g continues
  obtain ⟨t, s, roots⟩ := f
  simp only [run] at returned continues ⊢
  cases eq : x ⟨s, budget⟩ with
  | error failure w =>
    rw [eq] at returned
    cases returned
  | ok n' w =>
    rw [eq] at returned continues
    cases returned
    obtain ⟨-, le, -, again⟩ := h hs n w eq
    have part : w.store.PartOf g.store := continues.store.partOf
    obtain ⟨w', run', -, follows⟩ :=
      again ⟨g.store, budget⟩ ⟨rfl, Store.PartOf.trans le.partOf part⟩ part.admits
    have idle : w'.store = g.store := follows.eq_of_partOf part
    refine ⟨g.translator, ?_, rfl⟩
    rw [run']
    simp only [Reply.of, idle]

end Forest

theorem Rewriting.repeats_pass {v : Vocabulary} {w : Work} {n : Node} (x : Rewriting)
    (h : w.store.ValidNode v n) : (Work.repetition v).Repeats (x.pass n) (x.pass n) w
      fun n' w => w.store.ValidNode v n' := by
  cases x with
  | prune =>
    exact (Pass.repeats_prune ⟨h, Nat.le_refl _⟩).mono fun _ _ _ _ h' => h'.valid
  | distribute cleanup => exact Pass.repeats_distribute h
  | factor => exact Pass.repeats_factor h

/-! ## Additions -/

/-- Whether a request adds to a forest and returns a node. -/
def Request.adds : Request → Bool
  | plant _ | combine _ _ | complement _ | knownCheck _ | rewrite _ _ _ => true
  | express _ | rewriteRoots _ _ | simplify _ _ _ | setRoots _ | addRoot _ | sweep
  | sweepAbove _ => false

/-- What adds to a forest and returns a node: one of these requests, or taking over a node from the
forest of another session. -/
inductive Addition where
  | ask (request : Request) (adds : request.adds = true)
  | recode (other : Session) (n : Node)

namespace Addition

/-- Does what is asked for. -/
def perform (f : Forest) : Addition → Reply
  | ask request _ => request.perform f
  | recode other n => .of id ([·]) (Forest.recode other.forest n f)

/-- Only usable nodes are handed in. -/
def Allowed (x : Session) : Addition → Prop
  | ask request _ => ∀ n ∈ request.nodes, x.Usable n
  | recode other n => other.Reached ∧ other.Usable n

end Addition

theorem Reply.extends_of_growth {ε σ α : Type} (forest : σ → Forest) {nodes : α → List Node}
    {x : EStateM ε σ α} {s : σ} {Q : α → σ → Prop} (hs : (forest s).Valid)
    (h : (Forest.growth.comap forest).Ensures x s Q) :
    (forest s).Extends (Reply.of forest nodes (x s)).forest := by
  cases run : x s with
  | ok a t => exact (h.of_ok hs run).2.1
  | error e t => exact (h.of_error hs run).2.1

namespace Request

variable {f : Forest} {request : Request}

/-- Requests that add leave words and roots. -/
theorem extends_perform (hf : f.Valid) (hn : ∀ n ∈ request.nodes, f.ValidNode n)
    (adds : request.adds = true) : f.Extends (request.perform f).forest := by
  -- That lists are added does not depend on the record, so any will do.
  let r : Record := fun _ => none
  have means : ∀ n ∈ request.nodes, f.Means r n _ := fun n h => .of_valid (hn n h)
  cases request with
  | plant e => exact Reply.extends_of_growth id hf (Forest.ensures_encode r e f)
  | combine k members =>
    have joins : Store.Joins f.vocabulary r True f.store k members _ := ⟨hn, fun _ => rfl⟩
    exact Reply.extends_of_growth id hf
      (Forest.ensures_build_node (Store.ensures_combine joins))
  | complement n =>
    exact Reply.extends_of_growth id hf
      (Forest.ensures_build_node (Store.ensures_complement (means n (List.mem_singleton_self n))))
  | knownCheck n =>
    exact Reply.extends_of_growth id hf
      (Forest.ensures_knownCheck (hn n (List.mem_singleton_self n)))
  | rewrite x n budget =>
    exact Reply.extends_of_growth Prod.fst hf
      (Forest.ensures_run (x.keeps_pass (means n (List.mem_singleton_self n)))).lenient
  | _ => cases adds

theorem replays_perform (hf : f.Valid) (hn : ∀ n ∈ request.nodes, f.ValidNode n)
    (adds : request.adds = true) : Forest.Replays (request.perform ·) f := by
  cases request with
  | plant e => exact Forest.replays_of_recurs (Forest.recurs_encode e) hf.translator
  | combine k members =>
    exact Forest.replays_of_recurs (Forest.recurs_build (Build.recurs_combine k members))
      hf.translator
  | complement n =>
    exact Forest.replays_of_recurs (Forest.recurs_build (Build.recurs_complement n)) hf.translator
  | knownCheck n =>
    exact Forest.replays_of_recurs (Forest.recurs_build (Build.recurs_knownCheck n)) hf.translator
  | rewrite x n budget =>
    exact Forest.replays_run (x.repeats_pass (hn n (List.mem_singleton_self n))) hf.store
  | _ => cases adds

end Request

/-- **What was added once is found again.** An addition leaves words, roots, threshold and the
lists that were there, however it ends. If it returned a node, then the forest that it left, with
any lists added to it, and every other forest with its words and lists gives this node for the same
addition and keeps its store as it is. -/
theorem Session.Reached.replay {x : Session} {a : Addition} {y : Reply} (hx : x.Reached)
    (ha : a.Allowed x) (run : a.perform x.forest = y) :
    x.forest.Extends y.forest ∧
    (∀ s, y.forest.store.Extends s → y.forest.Continuation { y.forest with store := s }) ∧
    ∀ n, y.nodes = [n] → ∀ g, y.forest.Continuation g →
      ∃ t, a.perform g = ⟨[n], { g with translator := t }⟩ ∧ t.vocabulary = g.vocabulary := by
  subst run
  have hf := hx.sound.forest
  cases a with
  | ask request adds =>
    have valid : ∀ n ∈ request.nodes, x.forest.ValidNode n := fun n hn =>
      hx.sound.validNode (ha n hn)
    have left := (Request.sound_perform hf valid).valid.translator
    exact ⟨Request.extends_perform hf valid adds, fun s le => Forest.continuation_withStore left le,
      Request.replays_perform hf valid adds⟩
  | recode other n =>
    have ho := ha.1.sound
    have hn := ho.validNode ha.2
    have left := (Forest.sound_recode hf ho.forest hn).valid.translator
    have added := Forest.ensures_recode (f := x.forest) (r := fun _ => none) ho.forest hn
    exact ⟨Reply.extends_of_growth id hf added,
      fun s le => Forest.continuation_withStore left le,
      Forest.replays_of_recurs (Forest.recurs_recode other.forest n) hf.translator⟩

/-! ## A sample -/

namespace Sample

/-- The node of `a < x AND (a = x OR a IS NOT UNKNOWN)`. -/
def wide : Node := .combined .and 1

/-- The store with the list of that node besides. -/
def wideStore : Store := store.push [less, either] (Store.find?_eq_none (by decide))

/-- The session in which the OR and that node were built. -/
def wideSession : Session :=
  ⟨⟨.ofVocabulary vocabulary, wideStore, [both]⟩, [wide], [either, both]⟩

theorem reached_wide : wideSession.Reached :=
  reached_of_nested (Vocabulary.encodes_iff.2 ⟨_, codes_less⟩)
    (Store.combine_of_new (by rfl) (by decide) (by decide) (by decide))

/-- The store with the list of the term `a < x AND a = x` besides. -/
def termStore : Store := wideStore.push [less, equal] (Store.find?_eq_none (by decide))

/-- The node of `a < x OR (a < x AND a = x)`. -/
def spread : Node := .combined .or 3

/-- The store with the lists of the terms and of their OR besides. -/
def spreadStore : Store :=
  termStore.push [less, .combined .and 2] (Store.find?_eq_none (by decide))

/-- The second factor is implied, and the first one gives a term that is new. -/
theorem products_wide :
    Pass.products [equal, known] [less] ⟨wideStore, ⟨.unlimited, 5⟩⟩ =
      .ok [.combined .and 2, less] ⟨termStore, ⟨.unlimited, 7⟩⟩ := by
  have joined : wideStore.combine .and [less, equal] = .ok (.combined .and 2, termStore) :=
    Store.combine_of_new (by rfl) (by decide) (by decide) (by decide)
  have term : Pass.product less equal ⟨wideStore, ⟨.unlimited, 6⟩⟩ =
      .ok (some (.combined .and 2)) ⟨termStore, ⟨.unlimited, 6⟩⟩ :=
    bind_eq_of_ok (Pass.combine_of_eq_ok _ joined)
  have terms : Pass.productsOf less [equal, known] ⟨wideStore, ⟨.unlimited, 5⟩⟩ =
      .ok [.combined .and 2, less] ⟨termStore, ⟨.unlimited, 7⟩⟩ :=
    bind_eq_of_ok term
  exact bind_eq_of_ok terms

theorem distributeWithin_wide (fuel : Nat) :
    Pass.distributeWithin Pass.defaultCleanup (fuel + 3) wide ⟨wideStore, .fresh .unlimited⟩ =
      .ok spread ⟨spreadStore, ⟨.unlimited, 7⟩⟩ := by
  have again : wideStore.combine .or [equal, known] = .ok (either, wideStore) :=
    Store.combine_of_consolidated (consolidated .or) rfl (by decide)
  have joined : termStore.combine .or [less, .combined .and 2] = .ok (spread, spreadStore) :=
    Store.combine_of_new (by rfl) (by decide) (by decide) (by decide)
  have inner : Pass.distributeWithin Pass.defaultCleanup (fuel + 2) either
      ⟨wideStore, ⟨.unlimited, 2⟩⟩ = .ok either ⟨wideStore, ⟨.unlimited, 5⟩⟩ :=
    Pass.combine_of_eq_ok _ again
  have members : [less, either].mapM (Pass.distributeWithin Pass.defaultCleanup (fuel + 2))
      ⟨wideStore, ⟨.unlimited, 1⟩⟩ = .ok [less, either] ⟨wideStore, ⟨.unlimited, 5⟩⟩ :=
    mapM_cons_of_ok rfl (mapM_cons_of_ok inner rfl)
  have multiplied : Pass.multiplyOut Pass.defaultCleanup [less] [either]
      ⟨wideStore, ⟨.unlimited, 5⟩⟩ =
      .ok [less, .combined .and 2] ⟨termStore, ⟨.unlimited, 7⟩⟩ :=
    bind_eq_of_ok products_wide
  have distributed : Pass.distributeAnd Pass.defaultCleanup [less, either]
      ⟨wideStore, ⟨.unlimited, 5⟩⟩ = .ok spread ⟨spreadStore, ⟨.unlimited, 7⟩⟩ :=
    (bind_eq_of_ok multiplied).trans (Pass.combine_of_eq_ok _ joined)
  exact (bind_eq_of_ok members).trans distributed

/-- The distribution of the AND. -/
def spreading : Request := .rewrite (.distribute Pass.defaultCleanup) wide (.fresh .unlimited)

/-- To distribute the AND takes two new lists the first time. Asked for again, it gives the same
node over these lists. -/
theorem spread_replayed :
    Request.perform wideSession.forest spreading =
      ⟨[spread], { wideSession.forest with store := spreadStore }⟩ ∧
    spreadStore.size = wideStore.size + 2 ∧
    ∃ t, Request.perform { wideSession.forest with store := spreadStore } spreading =
      ⟨[spread], { wideSession.forest with store := spreadStore, translator := t }⟩ := by
  have reply : Request.perform wideSession.forest spreading =
      ⟨[spread], { wideSession.forest with store := spreadStore }⟩ := by
    have run : Forest.run (Pass.distribute Pass.defaultCleanup wide)
        (wideSession.forest, .fresh .unlimited) =
          .ok spread ({ wideSession.forest with store := spreadStore }, ⟨.unlimited, 7⟩) :=
      Forest.run_eq_ok (distributeWithin_wide _)
    simp only [spreading, Request.perform, Rewriting.pass, run]
    rfl
  have usable : ∀ n ∈ spreading.nodes, wideSession.Usable n := by
    intro n hn
    obtain rfl := List.mem_singleton.1 hn
    exact .combined (by decide) rfl (.inl (List.mem_singleton_self _))
  have replayed := reached_wide.replay (a := .ask spreading rfl) usable reply
  obtain ⟨t, again, -⟩ := replayed.2.2 spread rfl _ (replayed.2.1 spreadStore (.refl spreadStore))
  exact ⟨reply, rfl, t, again⟩

end Sample

end Criteria
