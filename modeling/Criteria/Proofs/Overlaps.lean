import Mathlib.Data.Finset.Prod
import Mathlib.Data.List.Lex
import Mathlib.Data.List.MinMax
import Mathlib.Data.Prod.Lex
import Criteria.Proofs.Termination.Factoring
import Criteria.Proofs.Transparency

/-!
# The best overlap

**Theorem (`Session.Reached.best_overlap_found`).** The search for an overlap in the members of an
OR adds nothing and fails only if its budget runs out. It finds nothing just if no two ANDs among
the members have a member in common. Otherwise it finds the best overlap (`Store.BestOverlap`):
what two of the ANDs have in common, contained in the overlaps of at least as many pairs as any
other; among those that are contained in as many, none is longer; among those that are as long as
well, it comes first.

Votes are counted along the list of all overlaps, one for each pair that has one, so an overlap
counts as often as it occurs. The pairs that vote are those whose two ANDs both contain it
(`Store.countP_overlaps`); an empty overlap votes for nothing, as candidates are not empty.
Candidates are gone through in ascending order, and a later one has to be better to replace the best
one so far. So what is found is `List.argmax` of the number of votes and the length, and of several
it is the one with the lowest position, which is the lowest (`Ascending.eq_or_lt_of_idxOf_le`).
-/

namespace Criteria

/-! ## Pairs of a list -/

section Pairs

variable {α β : Type}

/-- The elements of a list in pairs, each with all that follow it. -/
def pairs : List α → List (α × α)
  | [] => []
  | a :: l => l.map (a, ·) ++ pairs l

theorem pairs_map (f : α → β) (l : List α) : pairs (l.map f) = (pairs l).map (Prod.map f f) := by
  induction l with
  | nil => rfl
  | cons a l ih =>
    rw [List.map_cons, pairs, pairs, ih, List.map_append, List.map_map, List.map_map]
    rfl

theorem mem_of_mem_pairs {l : List α} {p : α × α} (h : p ∈ pairs l) : p.1 ∈ l ∧ p.2 ∈ l := by
  induction l with
  | nil => cases h
  | cons a l ih =>
    rw [pairs, List.mem_append, List.mem_map] at h
    rcases h with ⟨b, hb, rfl⟩ | h
    · exact ⟨List.mem_cons_self, List.mem_cons_of_mem _ hb⟩
    · exact ⟨List.mem_cons_of_mem _ (ih h).1, List.mem_cons_of_mem _ (ih h).2⟩

theorem nodup_pairs {l : List α} (h : l.Nodup) : (pairs l).Nodup := by
  induction l with
  | nil => exact List.nodup_nil
  | cons a l ih =>
    obtain ⟨ha, hl⟩ := List.nodup_cons.1 h
    rw [pairs, List.nodup_append]
    refine ⟨hl.map (Prod.mk_right_injective a), ih hl, ?_⟩
    rintro p hp _ hq rfl
    obtain ⟨b, -, rfl⟩ := List.mem_map.1 hp
    exact ha (mem_of_mem_pairs hq).1

variable [LT α] [IsStrictTotalOrder α (· < ·)]

/-- Along an ascending list, each two elements are met once, the lower one first. -/
theorem mem_pairs {l : List α} (h : Ascending l) {p : α × α} :
    p ∈ pairs l ↔ p.1 ∈ l ∧ p.2 ∈ l ∧ p.1 < p.2 := by
  induction l with
  | nil => simp [pairs]
  | cons a l ih =>
    obtain ⟨ha, hl⟩ := List.pairwise_cons.1 h
    obtain ⟨x, y⟩ := p
    rw [pairs, List.mem_append, ih hl, List.mem_map]
    simp only [List.mem_cons]
    constructor
    · rintro (⟨b, hb, eq⟩ | ⟨hx, hy, lt⟩)
      · cases eq
        exact ⟨.inl rfl, .inr hb, ha _ hb⟩
      · exact ⟨.inr hx, .inr hy, lt⟩
    · rintro ⟨rfl | hx, rfl | hy, lt⟩
      · exact (irrefl_of (· < ·) _ lt).elim
      · exact .inl ⟨y, hy, rfl⟩
      · exact (asymm_of (· < ·) lt (ha x hx)).elim
      · exact .inr ⟨hx, hy, lt⟩

omit [IsStrictTotalOrder α (· < ·)] in
/-- Of an ascending list, what comes earlier is lower. -/
theorem Ascending.eq_or_lt_of_idxOf_le [DecidableEq α] {l : List α} {a b : α} (h : Ascending l)
    (ha : a ∈ l) (hb : b ∈ l) (le : l.idxOf a ≤ l.idxOf b) : a = b ∨ a < b := by
  rcases Nat.lt_or_eq_of_le le with lt | eq
  · have ordered := List.pairwise_iff_getElem.1 h _ _ (List.idxOf_lt_length_of_mem ha)
      (List.idxOf_lt_length_of_mem hb) lt
    rw [List.getElem_idxOf, List.getElem_idxOf] at ordered
    exact .inr ordered
  · exact .inl ((List.idxOf_inj ha).1 eq)

end Pairs

instance : IsStrictTotalOrder (List Node) (· < ·) where
  irrefl l := List.lt_irrefl l
  trans _ _ _ := List.lt_trans
  trichotomous := (List.Lex.trichotomous (· < · : Node → Node → Prop)).trichotomous

/-! ## Overlaps -/

namespace Store

variable {v : Vocabulary} {s : Store} {ms o : List Node}

/-- The list of a combined node. -/
def listOf (s : Store) (n : Node) : List Node := (s.list? n.number).getD []

/-- What two nodes have in common. -/
def common (s : Store) (p : Node × Node) : Finset Node :=
  (s.listOf p.1).toFinset ∩ (s.listOf p.2).toFinset

/-- Each two ANDs among some nodes, the lower one first. -/
def andPairs (ms : List Node) : Finset (Node × Node) :=
  (ms.toFinset ×ˢ ms.toFinset).filter fun p =>
    p.1.isAnd = true ∧ p.2.isAnd = true ∧ p.1 < p.2

/-- How many pairs of ANDs both contain a list. -/
def votes (s : Store) (ms o : List Node) : Nat :=
  ((andPairs ms).filter fun p => o.toFinset ⊆ s.common p).card

/-- An ascending list that is what two ANDs among some nodes have in common. -/
structure Overlap (s : Store) (ms o : List Node) : Prop where
  ascending : Ascending o
  ne_nil : o ≠ []
  common : ∃ p ∈ andPairs ms, o.toFinset = s.common p

/-- An overlap that no other one is better than: it has the most votes, of those with as many it is
one of the longest, and of those it is the lowest. -/
structure BestOverlap (s : Store) (ms o : List Node) : Prop extends Overlap s ms o where
  best : ∀ o', s.Overlap ms o' → s.votes ms o' < s.votes ms o ∨ s.votes ms o' = s.votes ms o ∧
    (o'.length < o.length ∨ o'.length = o.length ∧ (o = o' ∨ o < o'))

/-- What each two ANDs among some nodes have in common, if anything. -/
def overlaps (s : Store) (ms : List Node) : List (List Node) :=
  ((pairs (ms.filter (·.isAnd))).map fun p =>
    Ascending.intersect (s.listOf p.1) (s.listOf p.2)).filter (!·.isEmpty)

theorem mem_andPairs {p : Node × Node} (asc : Ascending ms) :
    p ∈ pairs (ms.filter (·.isAnd)) ↔ p ∈ andPairs ms := by
  rw [mem_pairs (asc.sublist List.filter_sublist), andPairs, Finset.mem_filter,
    Finset.mem_product]
  simp only [List.mem_filter, List.mem_toFinset]
  tauto

theorem ascending_listOf {n : Node} (hn : s.ValidNode v n) (isAnd : n.isAnd = true) :
    Ascending (s.listOf n) := by
  obtain ⟨l, hl, hc⟩ := hn.list? (Node.isAnd_iff.1 isAnd)
  rw [listOf, hl]
  exact hc.ascending

variable (valid : ∀ m ∈ ms, s.ValidNode v m)
include valid

/-- The two lists of a pair are ascending, and so the elements of both are found. -/
theorem intersect_listOf {p : Node × Node} (hp : p ∈ andPairs ms) :
    Ascending (Ascending.intersect (s.listOf p.1) (s.listOf p.2)) ∧
      (Ascending.intersect (s.listOf p.1) (s.listOf p.2)).toFinset = s.common p := by
  rw [andPairs, Finset.mem_filter, Finset.mem_product, List.mem_toFinset, List.mem_toFinset] at hp
  obtain ⟨⟨left, right⟩, left_and, right_and, -⟩ := hp
  have first := ascending_listOf (valid _ left) left_and
  have second := ascending_listOf (valid _ right) right_and
  refine ⟨Ascending.ascending_intersect first, ?_⟩
  ext x
  rw [List.mem_toFinset, Ascending.mem_intersect first second, common, Finset.mem_inter,
    List.mem_toFinset, List.mem_toFinset]

theorem mem_overlaps (asc : Ascending ms) : o ∈ s.overlaps ms ↔ s.Overlap ms o := by
  rw [overlaps, List.mem_filter, List.mem_map]
  constructor
  · rintro ⟨⟨p, hp, rfl⟩, ne⟩
    rw [mem_andPairs asc] at hp
    obtain ⟨ascending, common⟩ := intersect_listOf valid hp
    exact ⟨ascending, by simpa using ne, p, hp, common⟩
  · rintro ⟨ascending, ne, p, hp, common⟩
    obtain ⟨ascending', common'⟩ := intersect_listOf valid hp
    refine ⟨⟨p, (mem_andPairs asc).2 hp, ?_⟩, by simpa using ne⟩
    refine List.Pairwise.eq_of_mem_iff ascending' ascending fun x => ?_
    rw [← List.mem_toFinset, common', ← common, List.mem_toFinset]

/-- The overlaps that contain a list that is not empty are those of the pairs that do. -/
theorem countP_overlaps (asc : Ascending ms) (ascending : Ascending o) (ne : o ≠ []) :
    (s.overlaps ms).countP (Ascending.subset o) = s.votes ms o := by
  have voting : ∀ p ∈ pairs (ms.filter (·.isAnd)),
      (Ascending.subset o (Ascending.intersect (s.listOf p.1) (s.listOf p.2)) = true ∧
        (!(Ascending.intersect (s.listOf p.1) (s.listOf p.2)).isEmpty) = true) ↔
      o.toFinset ⊆ s.common p := by
    intro p hp
    obtain ⟨ascending', common⟩ := intersect_listOf valid ((mem_andPairs asc).1 hp)
    rw [Ascending.subset_iff ascending ascending', ← common]
    -- An empty overlap contains nothing.
    obtain ⟨x, hx⟩ := List.exists_mem_of_ne_nil o ne
    constructor
    · rintro ⟨sub, -⟩ y hy
      exact List.mem_toFinset.2 (sub y (List.mem_toFinset.1 hy))
    · intro sub
      have sub : ∀ y ∈ o, y ∈ Ascending.intersect (s.listOf p.1) (s.listOf p.2) :=
        fun y hy => List.mem_toFinset.1 (sub (List.mem_toFinset.2 hy))
      refine ⟨sub, ?_⟩
      cases found : Ascending.intersect (s.listOf p.1) (s.listOf p.2) with
      | nil => exact (List.not_mem_nil (found ▸ sub x hx)).elim
      | cons y l => rfl
  have nodup : (pairs (ms.filter (·.isAnd))).Nodup :=
    nodup_pairs (Ascending.nodup (asc.sublist List.filter_sublist))
  rw [overlaps, List.countP_filter, List.countP_map, List.countP_eq_length_filter,
    ← List.toFinset_card_of_nodup (nodup.filter _), votes]
  congr 1
  ext p
  rw [List.mem_toFinset, List.mem_filter, Finset.mem_filter, ← mem_andPairs asc]
  refine and_congr_right fun hp => ?_
  rw [← voting p hp]
  simp only [Function.comp_apply, Bool.and_eq_true]

/-! ## The best of them -/

/-- What overlaps are compared by: the number of those that contain them, then their length. -/
def score (found : List (List Node)) (o : List Node) : ℕ ×ₗ ℕ :=
  toLex (found.countP (Ascending.subset o), o.length)

/-- The first of those with the highest score is the best overlap. -/
theorem bestOverlap_of_argmax (asc : Ascending ms)
    (best : (Ascending.ofList (s.overlaps ms)).argmax (score (s.overlaps ms)) = some o) :
    s.BestOverlap ms o := by
  have asc' := Ascending.ascending_ofList (s.overlaps ms)
  obtain ⟨mem, most, first⟩ := List.argmax_eq_some_iff.1 best
  have overlap := (mem_overlaps valid asc).1 (Ascending.mem_ofList.1 mem)
  refine ⟨overlap, fun o' overlap' => ?_⟩
  have mem' := Ascending.mem_ofList.2 ((mem_overlaps valid asc).2 overlap')
  have votes_eq := countP_overlaps valid asc overlap.ascending overlap.ne_nil
  have votes_eq' := countP_overlaps valid asc overlap'.ascending overlap'.ne_nil
  have le := most o' mem'
  rw [score, score, votes_eq, votes_eq', Prod.Lex.toLex_le_toLex] at le
  rcases le with fewer | ⟨as_many, le⟩
  · exact .inl fewer
  refine .inr ⟨as_many, ?_⟩
  rcases Nat.lt_or_eq_of_le le with shorter | as_long
  · exact .inl shorter
  refine .inr ⟨as_long, asc'.eq_or_lt_of_idxOf_le mem mem' (first o' mem' ?_)⟩
  simp only at as_many as_long
  rw [score, score, votes_eq, votes_eq', as_many, as_long]

/-- Where there is no candidate, no two ANDs have anything in common. -/
theorem common_eq_empty_of_argmax (asc : Ascending ms)
    (none : (Ascending.ofList (s.overlaps ms)).argmax (score (s.overlaps ms)) = none) :
    ∀ p ∈ andPairs ms, s.common p = ∅ := by
  intro p hp
  have empty := List.argmax_eq_none.1 none
  obtain ⟨ascending, common⟩ := intersect_listOf valid hp
  rw [← common, List.toFinset_eq_empty_iff]
  by_contra ne
  have mem := (mem_overlaps valid asc).2 ⟨ascending, ne, p, hp, common⟩
  rw [← Ascending.mem_ofList, empty] at mem
  cases mem

end Store

/-! ## Finding it -/

/-- Nothing is added, and nothing fails. -/
def Store.still (s : Store) : Growth Fault Store where
  valid t := t = s
  le _ _ := True
  fails _ _ := False
  refl _ := trivial
  trans _ _ := trivial

namespace Pass

variable {v : Vocabulary} {w : Work} {s : Store} {l ms : List Node}
  {ls found : List (List Node)}

theorem andLists_eq (valid : ∀ m ∈ ms, s.ValidNode v m) :
    andLists s ms = .ok ((ms.filter (·.isAnd)).map s.listOf) := by
  induction ms with
  | nil => rfl
  | cons m ms ih =>
    rw [List.forall_mem_cons] at valid
    rw [andLists, ih valid.2]
    by_cases isAnd : m.isAnd = true
    · have and := Node.isAnd_iff.1 isAnd
      obtain ⟨l, hl, -⟩ := valid.1.list? and
      rw [if_pos isAnd, Store.members_eq_ok and hl, List.filter_cons_of_pos isAnd, List.map_cons,
        Store.listOf, hl]
      rfl
    · rw [if_neg isAnd, List.filter_cons_of_neg isAnd]

theorem ensures_overlapsWith_eq :
    (Work.lift s.still).Ensures (overlapsWith l ls) w fun out _ =>
      out = (ls.map (Ascending.intersect l)).filter (!·.isEmpty) := by
  induction ls generalizing w with
  | nil => exact .pure fun _ => rfl
  | cons other rest ih =>
    rw [overlapsWith]
    refine ensures_check.bind fun _ w₁ _ _ _ => ih.bind fun out w₂ _ _ eq => .pure fun _ => ?_
    subst eq
    rw [List.map_cons, List.filter_cons]
    cases Ascending.intersect l other <;> rfl

theorem ensures_overlaps_eq :
    (Work.lift s.still).Ensures (overlaps ls) w fun out _ =>
      out = ((pairs ls).map fun p => Ascending.intersect p.1 p.2).filter (!·.isEmpty) := by
  induction ls generalizing w with
  | nil => exact .pure fun _ => rfl
  | cons l rest ih =>
    rw [overlaps]
    refine ensures_overlapsWith_eq.bind fun front w₁ _ _ front_eq => ?_
    refine ih.bind fun back w₂ _ _ back_eq => .pure fun _ => ?_
    rw [front_eq, back_eq, pairs, List.map_append, List.filter_append, List.map_map]
    rfl

/-- A list and the number of overlaps that contain it. -/
def candidate (found : List (List Node)) (l : List Node) : Candidate :=
  ⟨found.countP (Ascending.subset l), l⟩

theorem better_candidate_iff {a b : List Node} :
    (candidate found a).better (candidate found b) = true ↔
      Store.score found b < Store.score found a := by
  rw [Store.score, Store.score, Prod.Lex.toLex_lt_toLex]
  simp only [Candidate.better, Bool.or_eq_true, Bool.and_eq_true, decide_eq_true_eq]
  exact or_congr_right (and_congr_left fun _ => eq_comm)

/-- Keeping the better of two candidates is one step of the search for the first of the best. -/
theorem orBest_candidate (found : List (List Node)) (l : List Node) (best : Option (List Node)) :
    some ((candidate found l).orBest (best.map (candidate found))) =
      (List.argAux (fun a b => Store.score found b < Store.score found a) best l).map
        (candidate found) := by
  cases best with
  | none => rfl
  | some b =>
    by_cases lt : Store.score found b < Store.score found l
    · simp [Candidate.orBest, List.argAux, better_candidate_iff.2 lt, lt]
    · have worse := mt better_candidate_iff.1 lt
      simp [Candidate.orBest, List.argAux, worse, lt]

theorem ensures_bestOf_eq (best : Option (List Node)) :
    (Work.lift s.still).Ensures (bestOf found (best.map (candidate found)) ls) w fun out _ =>
      out = (ls.foldl (List.argAux fun a b => Store.score found b < Store.score found a) best).map
        (candidate found) := by
  induction ls generalizing w best with
  | nil => exact .pure fun _ => rfl
  | cons l rest ih =>
    rw [bestOf]
    refine ensures_check.bind fun _ w₁ _ _ _ => ?_
    have step := orBest_candidate found l best
    simp only [candidate] at step ⊢
    rw [step]
    exact ih _

/-- The search is for the first of the candidates with the highest score. -/
theorem ensures_bestOverlap_eq (valid : ∀ m ∈ ms, w.store.ValidNode v m) :
    (Work.lift w.store.still).Ensures (bestOverlap ms) w fun out _ =>
      out = (Ascending.ofList (w.store.overlaps ms)).argmax
        (Store.score (w.store.overlaps ms)) := by
  have lists : (Work.lift w.store.still).Ensures (read (andLists · ms)) w fun ls _ =>
      ls = (ms.filter (·.isAnd)).map w.store.listOf := by
    obtain ⟨s, budget⟩ := w
    intro hw
    rw [read, build, Build.read, show andLists s ms = _ from andLists_eq valid]
    exact ⟨hw, trivial, rfl⟩
  refine lists.bind fun ls w₁ _ _ lists_eq => ?_
  refine ensures_overlaps_eq.bind fun found w₂ _ _ found_eq => ?_
  have found_eq : found = w.store.overlaps ms := by
    rw [found_eq, lists_eq, pairs_map, List.map_map, Store.overlaps]
    rfl
  subst found_eq
  refine (ensures_bestOf_eq none).map fun out w₃ _ _ out_eq => ?_
  rw [out_eq, List.argmax, Option.map_map]
  exact congrFun Option.map_id _

/-- What the search finds: nothing just if no two ANDs have anything in common, and otherwise the
best overlap. It changes nothing, and fails only if its budget runs out. -/
theorem bestOverlap_found (asc : Ascending ms) (valid : ∀ m ∈ ms, w.store.ValidNode v m) :
    match bestOverlap ms w with
    | .ok out w' => w'.store = w.store ∧
      (out = none ↔ ∀ p ∈ Store.andPairs ms, w.store.common p = ∅) ∧
      ∀ o ∈ out, w.store.BestOverlap ms o
    | .error failure w' => w'.store = w.store ∧ failure.isOverrun = true := by
  have ensures := ensures_bestOverlap_eq valid
  cases run : bestOverlap ms w with
  | error failure w' =>
    obtain ⟨same, -, never⟩ := ensures.of_error rfl run
    refine ⟨same, ?_⟩
    cases failure with
    | fault f => exact (never f rfl).elim
    | overrun o => rfl
  | ok out w' =>
    obtain ⟨same, -, out_eq⟩ := ensures.of_ok rfl run
    refine ⟨same, ⟨fun none => ?_, fun apart => ?_⟩, fun o ho => ?_⟩
    · exact Store.common_eq_empty_of_argmax valid asc (out_eq.symm.trans none)
    · rw [Option.eq_none_iff_forall_not_mem]
      intro o ho
      have best := Store.bestOverlap_of_argmax valid asc (out_eq.symm.trans ho)
      obtain ⟨p, hp, common⟩ := best.common
      rw [apart p hp, List.toFinset_eq_empty_iff] at common
      exact best.ne_nil common
    · exact Store.bestOverlap_of_argmax valid asc (out_eq.symm.trans ho)

end Pass

/-- **The best overlap is found** in the members of every OR, if the budget lasts, as it does where
there is no limit. -/
theorem Session.Reached.best_overlap_found {x : Session} {n : Node} {ms : List Node}
    (h : x.Reached) (hn : x.Usable n) (isOr : n.isOr = true)
    (hms : x.forest.store.members n = .ok ms) (budget : Budget) :
    (match Pass.bestOverlap ms ⟨x.forest.store, budget⟩ with
    | .ok out w => w.store = x.forest.store ∧
      (out = none ↔ ∀ p ∈ Store.andPairs ms, x.forest.store.common p = ∅) ∧
      ∀ o ∈ out, x.forest.store.BestOverlap ms o
    | .error failure w => w.store = x.forest.store ∧ failure.isOverrun = true) ∧
    (budget.limit = .unlimited →
      ∃ out w, Pass.bestOverlap ms ⟨x.forest.store, budget⟩ = .ok out w) := by
  have list := (Store.list?_of_members hms).2
  obtain ⟨l, hl, hc⟩ := (h.sound.validNode hn).list? (Node.isOr_iff.1 isOr)
  obtain rfl : ms = l := Option.some.inj (list.symm.trans hl)
  have found := Pass.bestOverlap_found (w := ⟨x.forest.store, budget⟩) hc.ascending
    (h.sound.forest.store.members _ _ list)
  refine ⟨found, fun unlimited => ?_⟩
  obtain ⟨limit, used⟩ := budget
  subst unlimited
  obtain ⟨out, t, used', -, never, run, -⟩ :=
    (Pass.composed_bestOverlap ms).transparent x.forest.store used
  cases out with
  | ok out => exact ⟨out, _, run⟩
  | error failure =>
    rw [run] at found
    cases failure with
    | fault f => cases found.2
    | overrun o => exact (never o rfl).elim

namespace Sample

/-- The node of the leaf that compares `a` with `x`. -/
def compared (op : Operator) : Node := .leaf false op false 0 0

/-- The node of the OR of five ANDs. The first three contain `a < x AND a > x`, the second to fourth
contain `a = x AND a CONTAINS x`, and `a IS NOT UNKNOWN` is in the first, the third and the last. -/
def tied : Node := .combined .or 5

/-- The five ANDs. -/
def tiedMembers : List Node := (List.range 5).map (.combined .and)

/-- The store with the list of the first AND. -/
def tied₁ : Store :=
  (Store.empty Store.defaultThreshold).push
    [compared .lessThan, compared .greaterThan, known] (Store.find?_eq_none (by decide))

/-- The store with that of the second besides, and so on. -/
def tied₂ : Store :=
  tied₁.push [compared .lessThan, compared .greaterThan, equal, compared .contains]
    (Store.find?_eq_none (by decide))

@[inherit_doc tied₂]
def tied₃ : Store :=
  tied₂.push [compared .lessThan, compared .greaterThan, equal, compared .contains, known]
    (Store.find?_eq_none (by decide))

@[inherit_doc tied₂]
def tied₄ : Store := tied₃.push [equal, compared .contains] (Store.find?_eq_none (by decide))

@[inherit_doc tied₂]
def tied₅ : Store := tied₄.push [equal.flip, known] (Store.find?_eq_none (by decide))

/-- The store with the list of the OR too. -/
def tiedStore : Store := tied₅.push tiedMembers (Store.find?_eq_none (by decide))

/-- The leaves of the five ANDs. -/
def tiedLeaves : List Node :=
  [compared .lessThan, compared .greaterThan, equal, compared .contains, known, equal.flip]

theorem encodes_compared {op : Operator} (ne : op ≠ .isUnknown) :
    vocabulary.Encodes (compared op) :=
  Vocabulary.encodes_iff.2 ⟨⟨false, "a", op, some (.value "x")⟩, .value ne rfl rfl⟩

theorem encodes_tiedLeaves : ∀ n ∈ tiedLeaves, vocabulary.Encodes n := by
  have equals : vocabulary.Encodes (compared .equals) := encodes_compared (by decide)
  simp only [tiedLeaves, List.forall_mem_cons]
  exact ⟨encodes_compared (by decide), encodes_compared (by decide), equals,
    encodes_compared (by decide), Vocabulary.encodes_iff.2 ⟨_, codes_known⟩, equals.flip, by simp⟩

theorem combine_tied : tied₅.combine .or tiedMembers = .ok (tied, tiedStore) :=
  Store.combine_of_new (by rfl) (by decide) (by decide) (by decide)

theorem reached_tied : ∃ x : Session, x.Reached ∧ x.Usable tied ∧ x.forest.store = tiedStore := by
  have joined₁ : (Store.empty Store.defaultThreshold).combine .and
      [compared .lessThan, compared .greaterThan, known] = .ok (.combined .and 0, tied₁) :=
    Store.combine_of_new (by rfl) (by decide) (by decide) (by decide)
  have joined₂ : tied₁.combine .and
      [compared .lessThan, compared .greaterThan, equal, compared .contains] =
        .ok (.combined .and 1, tied₂) :=
    Store.combine_of_new (by rfl) (by decide) (by decide) (by decide)
  have joined₃ : tied₂.combine .and
      [compared .lessThan, compared .greaterThan, equal, compared .contains, known] =
        .ok (.combined .and 2, tied₃) :=
    Store.combine_of_new (by rfl) (by decide) (by decide) (by decide)
  have joined₄ : tied₃.combine .and [equal, compared .contains] = .ok (.combined .and 3, tied₄) :=
    Store.combine_of_new (by rfl) (by decide) (by decide) (by decide)
  have joined₅ : tied₄.combine .and [equal.flip, known] = .ok (.combined .and 4, tied₅) :=
    Store.combine_of_new (by rfl) (by decide) (by decide) (by decide)
  have usable : ∀ {x : Session} {l : List Node}, x.forest.vocabulary = vocabulary →
      l ⊆ tiedLeaves → ∀ n ∈ l, x.Usable n :=
    fun same sub n hn => .leaf (same ▸ encodes_tiedLeaves n (sub hn))
  have ands := (((((Session.Reached.ofVocabulary vocabulary).combine (usable rfl (by decide))
    joined₁).combine (usable rfl (by decide)) joined₂).combine (usable rfl (by decide))
    joined₃).combine (usable rfl (by decide)) joined₄).combine (usable rfl (by decide)) joined₅
  have built : ∀ n ∈ tiedMembers, n.isCombined = true ∧ (tied₅.list? n.number).isSome = true ∧
      (n ∈ [Node.combined .and 4] ∨
        n ∈ [Node.combined .and 3, .combined .and 2, .combined .and 1, .combined .and 0]) := by
    decide
  refine ⟨_, ands.combine (fun n hn => ?_) combine_tied,
    .combined (by decide) rfl (.inl (List.mem_singleton_self _)), rfl⟩
  obtain ⟨comb, there, last | earlier⟩ := built n hn
  · exact .combined comb (Option.some_get there).symm (.inl last)
  · exact .combined comb (Option.some_get there).symm (.inr (.inl earlier))

/-- What each two of the ANDs have in common. -/
def tiedOverlaps : List (List Node) :=
  [[compared .lessThan, compared .greaterThan],
    [compared .lessThan, compared .greaterThan, known], [known],
    [compared .lessThan, compared .greaterThan, equal, compared .contains],
    [equal, compared .contains], [equal, compared .contains], [known]]

theorem overlaps_tied : tiedStore.overlaps tiedMembers = tiedOverlaps := rfl

/-- Each step of the search is evaluated on the outcome of the one before. -/
theorem bestOverlap_tied : Pass.bestOverlap tiedMembers ⟨tiedStore, .fresh .unlimited⟩ =
    .ok (some [compared .lessThan, compared .greaterThan]) ⟨tiedStore, ⟨.unlimited, 15⟩⟩ := by
  have lists : Pass.read (Pass.andLists · tiedMembers) ⟨tiedStore, .fresh .unlimited⟩ =
      .ok (tiedMembers.map tiedStore.listOf) ⟨tiedStore, .fresh .unlimited⟩ := rfl
  have overlaps : Pass.overlaps (tiedMembers.map tiedStore.listOf)
      ⟨tiedStore, .fresh .unlimited⟩ = .ok tiedOverlaps ⟨tiedStore, ⟨.unlimited, 10⟩⟩ := rfl
  have chosen : Pass.bestOf tiedOverlaps none (Ascending.ofList tiedOverlaps)
      ⟨tiedStore, ⟨.unlimited, 10⟩⟩ =
      .ok (some ⟨3, [compared .lessThan, compared .greaterThan]⟩)
        ⟨tiedStore, ⟨.unlimited, 15⟩⟩ := rfl
  rw [Pass.bestOverlap, bind_eq_of_ok lists, bind_eq_of_ok overlaps, bind_eq_of_ok chosen]
  rfl

/-- Of the overlaps, `a < x AND a > x` is the best. The longest has fewer votes, that of
`a IS NOT UNKNOWN` has as many but is shorter, and that of `a = x AND a CONTAINS x` has as many and
is as long, but comes later. -/
theorem shared_overlap :
    tiedStore.overlaps tiedMembers = tiedOverlaps ∧
    (Ascending.ofList tiedOverlaps).map (tiedStore.votes tiedMembers) = [3, 1, 1, 3, 3] ∧
    (∃ w, Pass.bestOverlap tiedMembers ⟨tiedStore, .fresh .unlimited⟩ =
      .ok (some [compared .lessThan, compared .greaterThan]) w) ∧
    tiedStore.BestOverlap tiedMembers [compared .lessThan, compared .greaterThan] := by
  obtain ⟨x, reached, usable, store⟩ := reached_tied
  have list : x.forest.store.list? 5 = some tiedMembers := by
    rw [store]
    rfl
  have members : x.forest.store.members tied = .ok tiedMembers :=
    Store.members_eq_ok (k := .or) (by decide) list
  have valid := reached.sound.forest.store.members 5 tiedMembers list
  obtain ⟨search, -⟩ := reached.best_overlap_found usable (by decide) members (.fresh .unlimited)
  rw [store] at valid search
  rw [bestOverlap_tied] at search
  have votes : ∀ o ∈ Ascending.ofList tiedOverlaps, tiedStore.votes tiedMembers o =
      tiedOverlaps.countP (Ascending.subset o) := by
    have fine : ∀ o ∈ Ascending.ofList tiedOverlaps, Ascending o ∧ o ≠ [] := by decide
    intro o ho
    rw [← overlaps_tied, Store.countP_overlaps valid (by decide) (fine o ho).1 (fine o ho).2]
  refine ⟨overlaps_tied, ?_, ⟨_, bestOverlap_tied⟩, search.2.2 _ rfl⟩
  rw [List.map_congr_left votes]
  rfl

end Sample

end Criteria
