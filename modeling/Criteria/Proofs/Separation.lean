import Criteria.Proofs.Housekeeping
import Criteria.Proofs.Mirroring
import Criteria.Proofs.Overlaps

/-!
# Overlaps after factoring

Call an OR *crowded* if two ANDs among its members have a member in common (`Store.Crowded`).

**Theorem (`Session.Reached.overlaps_factored_out`).** Every crowded OR in what a node is factored
to was brought in by pruning: it occurs in what came out of some run of pruning, and not in what
went in. What goes into pruning is never crowded itself.

Joining brings in no node but the one that it gives (`Store.occurs_combine`), and an OR that is
joined has its overlaps taken out until there are none, which is before the rounds are used up. The
rests go through factoring themselves, and the overlap consists of members of members. So factoring
can keep a log of its runs of pruning that accounts for every crowded OR, on each level and in each
round (`Pass.Accounts`).

Pruning does bring overlaps back. Where a member of an AND goes, what is left of the AND may be an
OR, and its members become members of the OR above, next to ANDs that they never met before.
-/

namespace Criteria

namespace Store

variable {v : Vocabulary} {s t : Store} {k : Connective} {m n q : Node} {l ms : List Node}

/-! ## Nodes inside others -/

/-- A node is another one, or a member of one that occurs in it. -/
inductive Occurs (s : Store) (q : Node) : Node → Prop
  | self : Occurs s q q
  | member {n m : Node} {k : Connective} {l : List Node} : n.connective? = some k →
      s.list? n.number = some l → m ∈ l → Occurs s q m → Occurs s q n

namespace Occurs

theorem trans (h : s.Occurs q m) (h' : s.Occurs m n) : s.Occurs q n := by
  induction h' with
  | self => exact h
  | member hk hl hm _ ih => exact .member hk hl hm ih

theorem eq_of_connective? (h : s.Occurs q n) (hk : n.connective? = none) : q = n := by
  cases h with
  | self => rfl
  | member hk' => cases hk.symm.trans hk'

/-- What occurs in a combined node is the node or occurs in a member. -/
theorem cases_of_list? (h : s.Occurs q n) (hl : s.list? n.number = some l) :
    q = n ∨ ∃ m ∈ l, s.Occurs q m := by
  cases h with
  | self => exact .inl rfl
  | member _ hl' hm inner =>
    cases hl.symm.trans hl'
    exact .inr ⟨_, hm, inner⟩

theorem validNode (hs : s.Valid v) (hn : s.ValidNode v n) (h : s.Occurs q n) :
    s.ValidNode v q := by
  induction h with
  | self => exact hn
  | member _ hl hm _ ih => exact ih (hs.members _ _ hl _ hm)

theorem level_le (hs : s.Valid v) (h : s.Occurs q n) : q.level ≤ n.level := by
  induction h with
  | self => exact Nat.le_refl _
  | member hk hl hm _ ih => exact ih.trans (level_lt_of_mem hs.layered hk hl hm).le

theorem of_extends (le : s.Extends t) (h : s.Occurs q n) : t.Occurs q n := by
  induction h with
  | self => exact .self
  | member hk hl hm _ ih => exact .member hk (le.list? hl) hm ih

theorem to_extends (hs : s.Valid v) (le : s.Extends t) (hn : s.ValidNode v n)
    (h : t.Occurs q n) : s.Occurs q n := by
  induction h with
  | self => exact .self
  | member hk hl hm _ ih =>
    obtain ⟨l', hl', -⟩ := hn.list? hk
    cases hl.symm.trans (le.list? hl')
    exact .member hk hl' hm (ih (hs.members _ _ hl' _ hm))

end Occurs

/-- What members are lifted from. -/
theorem occurs_of_mem_flatten (h : s.flatten k ms = .ok l) (hq : q ∈ l) :
    ∃ m ∈ ms, s.Occurs q m := by
  induction ms generalizing l with
  | nil =>
    cases h
    cases hq
  | cons m ms ih =>
    obtain ⟨front, back, hfront, hback, rfl⟩ := flatten_cons_eq_ok h
    rcases List.mem_append.1 hq with hq | hq
    · refine ⟨m, List.mem_cons_self, ?_⟩
      split at hfront
      · next hk => exact .member hk (list?_of_members hfront).2 hq .self
      · cases hfront
        obtain rfl := List.mem_singleton.1 hq
        exact .self
    · obtain ⟨m', hm', occurs⟩ := ih hback hq
      exact ⟨m', List.mem_cons_of_mem _ hm', occurs⟩

/-- Joining nodes brings in nothing but the node itself, and constants. -/
theorem occurs_combine (hs : s.Valid v) (h : ∀ m ∈ ms, s.ValidNode v m)
    (eq : s.combine k ms = .ok (n, t)) (hq : t.Occurs q n) :
    q = n ∧ n.connective? = some k ∨ q.isConstant = true ∨ ∃ m ∈ ms, t.Occurs q m := by
  obtain ⟨-, le, -⟩ := valid_of_combine hs h eq
  rcases combine_eq_ok_cases eq with constant | ⟨flat, r, flatten, sub, rest⟩
  · have none : n.connective? = none := by
      rcases Node.isConstant_iff.1 constant with rfl | rfl
      · rfl
      · rfl
    exact .inr (.inl (hq.eq_of_connective? none ▸ constant))
  have lifted : ∀ m' ∈ r, ∃ m ∈ ms, t.Occurs m' m := by
    intro m' hm'
    obtain ⟨m, hm, occurs⟩ :=
      occurs_of_mem_flatten flatten (Ascending.mem_ofList.1 (sub.mem hm'))
    exact ⟨m, hm, occurs.of_extends le⟩
  rcases rest with rfl | ⟨hk, hl⟩
  · obtain ⟨m, hm, occurs⟩ := lifted n List.mem_cons_self
    exact .inr (.inr ⟨m, hm, hq.trans occurs⟩)
  · rcases hq.cases_of_list? hl with rfl | ⟨m', hm', inner⟩
    · exact .inl ⟨rfl, hk⟩
    · obtain ⟨m, hm, occurs⟩ := lifted m' hm'
      exact .inr (.inr ⟨m, hm, inner.trans occurs⟩)

/-! ## Crowded nodes -/

/-- An OR of which two ANDs have a member in common. -/
def Crowded (s : Store) (n : Node) : Prop :=
  n.isOr = true ∧ ∃ p ∈ andPairs (s.listOf n), s.common p ≠ ∅

theorem listOf_of_extends (le : s.Extends t) (hn : s.ValidNode v n)
    (hk : n.connective? = some k) : t.listOf n = s.listOf n := by
  obtain ⟨l, hl, -⟩ := hn.list? hk
  rw [listOf, listOf, hl, le.list? hl]

/-- Lists that are added crowd no node that was there. -/
theorem crowded_of_extends (hs : s.Valid v) (le : s.Extends t) (hn : s.ValidNode v n) :
    t.Crowded n ↔ s.Crowded n := by
  refine and_congr_right fun isOr => ?_
  obtain ⟨l, hl, -⟩ := hn.list? (Node.isOr_iff.1 isOr)
  rw [listOf_of_extends le hn (Node.isOr_iff.1 isOr), listOf, hl, Option.getD_some]
  refine exists_congr fun p => and_congr_right fun hp => ?_
  rw [andPairs, Finset.mem_filter, Finset.mem_product, List.mem_toFinset, List.mem_toFinset] at hp
  obtain ⟨⟨left, right⟩, left_and, right_and, -⟩ := hp
  rw [common, common,
    listOf_of_extends le (hs.members _ _ hl _ left) (Node.isAnd_iff.1 left_and),
    listOf_of_extends le (hs.members _ _ hl _ right) (Node.isAnd_iff.1 right_and)]

theorem Crowded.connective? (h : s.Crowded n) : n.connective? = some .or := Node.isOr_iff.1 h.1

end Store

/-! ## What was pruned -/

/-- A run of pruning: the node that went in and the one that came out. -/
structure Pruning where
  before : Node
  after : Node

namespace Store

variable {v : Vocabulary} {s t : Store} {k : Connective} {m n q : Node} {l ms overlap : List Node}
  {p : Pruning} {log log' : List Pruning}

/-- A node that was not there before a run of pruning and is there after it. -/
structure Brings (s : Store) (p : Pruning) (q : Node) : Prop where
  after : s.Occurs q p.after
  before : ¬ s.Occurs q p.before

/-- The runs are runs of pruning, and all that went in is valid and not crowded. -/
structure Logged (v : Vocabulary) (s : Store) (log : List Pruning) : Prop where
  runs : ∀ p ∈ log, ∃ w w', Pass.prune p.before w = .ok p.after w'
  before : ∀ p ∈ log, s.ValidNode v p.before
  apart : ∀ p ∈ log, ¬ s.Crowded p.before

/-- Pruning brought in all crowded nodes that occur in a node. -/
def Explains (s : Store) (log : List Pruning) (n : Node) : Prop :=
  ∀ q, s.Occurs q n → s.Crowded q → ∃ p ∈ log, s.Brings p q

/-- Pruning brought in all of them but the node itself, which has the given connective. -/
def ExplainsBelow (s : Store) (k : Connective) (log : List Pruning) (n : Node) : Prop :=
  ∀ q, s.Occurs q n → s.Crowded q →
    q = n ∧ n.connective? = some k ∨ ∃ p ∈ log, s.Brings p q

theorem logged_nil : s.Logged v [] := ⟨by simp, by simp, by simp⟩

theorem Logged.append (h : s.Logged v log) (h' : s.Logged v log') : s.Logged v (log ++ log') where
  runs p hp := (List.mem_append.1 hp).elim (h.runs p) (h'.runs p)
  before p hp := (List.mem_append.1 hp).elim (h.before p) (h'.before p)
  apart p hp := (List.mem_append.1 hp).elim (h.apart p) (h'.apart p)

theorem Logged.of_extends (h : s.Logged v log) (hs : s.Valid v) (le : s.Extends t) :
    t.Logged v log where
  runs := h.runs
  before p hp := (h.before p hp).mono le
  apart p hp := by
    rw [crowded_of_extends hs le (h.before p hp)]
    exact h.apart p hp

theorem Logged.brings_of_extends (h : s.Logged v log) (hs : s.Valid v) (le : s.Extends t) :
    (∃ p ∈ log, s.Brings p q) → ∃ p ∈ log, t.Brings p q := by
  rintro ⟨p, hp, after, before⟩
  exact ⟨p, hp, after.of_extends le, fun occurs =>
    before (occurs.to_extends hs le (h.before p hp))⟩

namespace Explains

theorem of_not_or (h : n.connective? = none) : s.Explains log n := by
  intro q occurs crowded
  obtain rfl := occurs.eq_of_connective? h
  cases h.symm.trans crowded.connective?

theorem of_occurs (h : s.Explains log n) (occurs : s.Occurs m n) : s.Explains log m :=
  fun q inner crowded => h q (inner.trans occurs) crowded

theorem mono (h : s.Explains log n) (sub : log ⊆ log') : s.Explains log' n := by
  intro q occurs crowded
  obtain ⟨p, hp, brings⟩ := h q occurs crowded
  exact ⟨p, sub hp, brings⟩

theorem of_extends (h : s.Explains log n) (hs : s.Valid v) (le : s.Extends t)
    (hn : s.ValidNode v n) (logged : s.Logged v log) : t.Explains log n := by
  intro q occurs crowded
  have occurs := occurs.to_extends hs le hn
  have crowded := (crowded_of_extends hs le (occurs.validNode hs hn)).1 crowded
  exact logged.brings_of_extends hs le (h q occurs crowded)

/-- An overlap consists of members of a member that contains it. -/
theorem of_yields (h : s.Explains log m) (yields : s.yields overlap m = true) :
    ∀ o ∈ overlap, s.Explains log o := by
  rw [Store.yields, Bool.and_eq_true, Node.isAnd_iff] at yields
  obtain ⟨isAnd, sub⟩ := yields
  split at sub
  · next l hl =>
    intro o ho
    have mem := Ascending.mem_of_subset sub o ho
    exact h.of_occurs (.member isAnd (list?_of_members hl).2 mem .self)
  · cases sub

/-- Pruning once more brings in what was not there before. -/
theorem prune (h : s.Explains log m) : s.Explains (log ++ [⟨m, n⟩]) n := by
  intro q occurs crowded
  by_cases before : s.Occurs q m
  · exact h.mono (List.subset_append_left _ _) q before crowded
  · exact ⟨⟨m, n⟩, List.mem_append_right _ (List.mem_singleton_self _), occurs, before⟩

end Explains

namespace ExplainsBelow

theorem of_extends (h : s.ExplainsBelow k log n) (hs : s.Valid v) (le : s.Extends t)
    (hn : s.ValidNode v n) (logged : s.Logged v log) : t.ExplainsBelow k log n := by
  intro q occurs crowded
  have occurs := occurs.to_extends hs le hn
  have crowded := (crowded_of_extends hs le (occurs.validNode hs hn)).1 crowded
  exact (h q occurs crowded).imp_right (logged.brings_of_extends hs le)

theorem explains (h : s.ExplainsBelow k log n) (apart : ¬ s.Crowded n) : s.Explains log n := by
  intro q occurs crowded
  refine (h q occurs crowded).resolve_left ?_
  rintro ⟨rfl, -⟩
  exact apart crowded

theorem explains_and (h : s.ExplainsBelow .and log n) : s.Explains log n := by
  intro q occurs crowded
  refine (h q occurs crowded).resolve_left ?_
  rintro ⟨rfl, isAnd⟩
  cases isAnd.symm.trans crowded.connective?

/-- A node does not occur in its members. -/
theorem members (h : s.ExplainsBelow k log n) (hs : s.Valid v) {k' : Connective}
    (hk : n.connective? = some k') (hl : s.list? n.number = some l) :
    ∀ m ∈ l, s.Explains log m := by
  intro m hm q occurs crowded
  refine (h q (.member hk hl hm occurs) crowded).resolve_left ?_
  rintro ⟨rfl, -⟩
  have lower := level_lt_of_mem hs.layered hk hl hm
  exact absurd (occurs.level_le hs) (Nat.not_le.2 lower)

end ExplainsBelow

theorem ensures_combine_explains (h : ∀ m ∈ ms, s.ValidNode v m) (logged : s.Logged v log)
    (each : ∀ m ∈ ms, s.Explains log m) :
    (growth v).Ensures (Build.combine k ms) s fun n t => t.ExplainsBelow k log n := by
  refine ensures_combine_of_eq h fun n t hs eq q occurs crowded => ?_
  obtain ⟨-, le, -⟩ := valid_of_combine hs h eq
  rcases occurs_combine hs h eq occurs with here | constant | ⟨m, hm, inner⟩
  · exact .inl here
  · rw [Node.not_isConstant_of_isCombined (Node.isCombined_of_connective? crowded.connective?)]
      at constant
    cases constant
  · exact .inr ((each m hm).of_extends hs le (h m hm) logged q inner crowded)

end Store

/-! ## Factoring with a log -/

namespace Pass

open Store (TotalAtMost)

/-- Takes an overlap out, as `factorOut`. -/
def factorOutLogged (factor : Node → Pass (Node × List Pruning)) (ms overlap : List Node) :
    Pass (Node × List Pruning) := do
  let r ← takeOut overlap ms
  let inner ← factor (← combine .or r.rests)
  let factored ← combine .and (Ascending.merge overlap [inner.1])
  return (← combine .or (r.others ++ [factored]), inner.2)

/-- Takes out overlaps as long as there are any, as `factorAll`. -/
def factorAllLogged (factor : Node → Pass (Node × List Pruning)) :
    Nat → Node → Pass (Node × List Pruning)
  | 0, n => return (n, [])
  | rounds + 1, n => do
    if !n.isOr then return (n, [])
    check
    let ms ← members n
    match ← bestOverlap ms with
    | none => return (n, [])
    | some overlap =>
      let once ← factorOutLogged factor ms overlap
      let rest ← factorAllLogged factor rounds once.1
      return (rest.1, once.2 ++ rest.2)

/-- Factors a node, as `factorWithin`, and keeps a log of all runs of pruning. -/
def factorWithinLogged : Nat → Node → Pass (Node × List Pruning)
  | 0, n => return (n, [])
  | fuel + 1, n => do
    check
    match n.connective? with
    | none => return (n, [])
    | some k =>
      let each ← (← members n).mapM (factorWithinLogged fuel)
      let n' ← combine k (each.map (·.1))
      let log := each.flatMap (·.2)
      match k with
      | .and => return (n', log)
      | .or =>
        let all ← factorAllLogged (fun m => factorWithinLogged fuel m) fuel n'
        let pruned ← prune all.1
        return (pruned, log ++ all.2 ++ [⟨all.1, pruned⟩])

/-- Factors a node, as `factor`, and keeps a log of all runs of pruning. -/
def factorLogged (n : Node) : Pass (Node × List Pruning) := fun w =>
  factorWithinLogged (w.store.effort n) n w

variable {v : Vocabulary} {w : Work} {k : Connective} {n : Node} {l ms overlap : List Node}
  {p : Node → Pass (Node × List Pruning)} {log : List Pruning} {c most rounds fuel : Nat}

/-! ### Without the log -/

theorem fst_mapM {f : Node → Pass (Node × List Pruning)} :
    List.map (·.1) <$> l.mapM f = l.mapM fun n => Prod.fst <$> f n := by
  induction l with
  | nil => rfl
  | cons n l ih =>
    rw [List.mapM_cons, List.mapM_cons, ← ih]
    simp only [map_bind, map_pure, bind_map_left, List.map_cons]

theorem fst_factorOutLogged :
    Prod.fst <$> factorOutLogged p ms overlap =
      factorOut (fun n => Prod.fst <$> p n) ms overlap := by
  simp only [factorOutLogged, factorOut, map_bind, map_pure, bind_map_left, bind_pure]

theorem fst_factorAllLogged :
    Prod.fst <$> factorAllLogged p rounds n = factorAll (fun n => Prod.fst <$> p n) rounds n := by
  induction rounds generalizing n with
  | zero => rfl
  | succ rounds ih =>
    rw [factorAllLogged, factorAll]
    split
    · rfl
    simp only [map_bind]
    refine bind_congr fun _ => bind_congr fun ms => bind_congr fun out => ?_
    cases out with
    | none => exact map_pure _ _
    | some overlap =>
      simp only [← fst_factorOutLogged, ← ih, map_bind, bind_map_left, bind_pure_comp,
        Functor.map_map]

theorem fst_factorWithinLogged (fuel : Nat) (n : Node) :
    Prod.fst <$> factorWithinLogged fuel n = factorWithin fuel n := by
  induction fuel generalizing n with
  | zero => rfl
  | succ fuel ih =>
    rw [factorWithinLogged, factorWithin]
    simp only [map_bind]
    refine bind_congr fun _ => ?_
    cases n.connective? with
    | none => rfl
    | some k =>
      simp only [map_bind]
      refine bind_congr fun ms => ?_
      have each := fst_mapM (f := factorWithinLogged fuel) (l := ms)
      simp only [ih] at each
      rw [← each, bind_map_left]
      refine bind_congr fun each => bind_congr fun n' => ?_
      cases k with
      | and => rfl
      | or =>
        simp only [← ih, ← fst_factorAllLogged, map_bind, map_pure, bind_map_left, bind_pure]

/-- Factoring with a log is factoring. -/
theorem fst_factorLogged : Prod.fst <$> factorLogged n = factor n := by
  funext w
  calc (Prod.fst <$> factorLogged n) w
      = (Prod.fst <$> factorWithinLogged (w.store.effort n) n) w := by
        rw [map_eq_pure_bind, map_eq_pure_bind]
        exact bind_congr_left rfl
    _ = factor n w := congrFun (fst_factorWithinLogged (w.store.effort n) n) w

/-! ### What the log explains -/

theorem repeats_combine_explains (h : w.store.TotalAtMost v c l) (logged : w.store.Logged v log)
    (each : ∀ m ∈ l, w.store.Explains log m) :
    (Work.repetition v).Repeats (combine k l) (combine k l) w fun n w =>
      w.store.AtMost v c n ∧ w.store.ExplainsBelow k log n := by
  have explains : (Work.growth v).Ensures (combine k l) w
      fun n w => w.store.ExplainsBelow k log n :=
    ensures_build (Store.ensures_combine_explains h.valid logged each)
  exact .assuming fun hw => (repeats_combine h).ensuring explains hw

/-- What is not a rest was there before. -/
theorem ensures_others_takeOut :
    Work.additions.Ensures (takeOut overlap ms) w fun r _ => r.others ⊆ ms := by
  induction ms generalizing w with
  | nil => exact .pure fun _ => List.Subset.refl _
  | cons m rest ih =>
    have keep : ∀ {w' : Work}, Work.additions.Ensures (do
        let r ← takeOut overlap rest
        return { r with others := m :: r.others }) w' fun r _ => r.others ⊆ m :: rest :=
      ih.map fun r _ _ _ sub => List.cons_subset_cons m sub
    rw [takeOut]
    by_cases isAnd : m.isAnd = true
    · rw [if_pos isAnd]
      refine (ensures_read_eq _).bind fun l w₁ _ _ _ => ?_
      by_cases sub : Ascending.subset overlap l = true
      · rw [if_pos sub]
        refine ((composed_combine _ _).ensures w₁).bind fun n w₂ _ _ _ => ?_
        exact ih.map fun r _ _ _ sub => List.subset_cons_of_subset m sub
      · rw [if_neg sub]
        exact keep
    · rw [if_neg isAnd]
      exact keep

/-- A node that bears `c` leaves at most, and what was pruned on the way to it. -/
structure Accounted (v : Vocabulary) (s : Store) (c : Nat) (out : Node × List Pruning) : Prop where
  atMost : s.AtMost v c out.1
  logged : s.Logged v out.2
  explains : s.Explains out.2 out.1

/-- A pass that keeps such a log, on nodes that bear few leaves. -/
def Accounts (v : Vocabulary) (most : Nat) (p : Node → Pass (Node × List Pruning)) : Prop :=
  ∀ {w : Work} {n : Node} {c : Nat}, c ≤ most → w.store.AtMost v c n →
    (Work.repetition v).Repeats (p n) (p n) w fun out w => Accounted v w.store c out

theorem Accounts.mapM (accounts : Accounts v most p) (each : ∀ m ∈ l, w.store.AtMost v most m)
    (h : w.store.TotalAtMost v c l) :
    (Work.repetition v).Repeats (l.mapM p) (l.mapM p) w fun outs w =>
      w.store.TotalAtMost v c (outs.map (·.1)) ∧ w.store.Logged v (outs.flatMap (·.2)) ∧
        ∀ m ∈ outs.map (·.1), w.store.Explains (outs.flatMap (·.2)) m := by
  induction l generalizing w c with
  | nil =>
    rw [List.mapM_nil]
    exact .pure fun _ => ⟨.nil, Store.logged_nil, by simp⟩
  | cons m rest ih =>
    rw [List.mapM_cons]
    obtain ⟨head, tail, share⟩ := h.uncons
    refine .assuming fun hw => (accounts (each m List.mem_cons_self).le head).bind
      fun out w₁ hw₁ le₁ hout => ?_
    refine (ih (fun m hm => ?_) (tail.of_extends hw le₁)).bind
      fun outs w₂ _ le₂ houts => .pure fun _ => ?_
    · exact (each m (List.mem_cons_of_mem _ hm)).of_extends hw le₁
    obtain ⟨total, logged, explains⟩ := houts
    have first := hout.explains.of_extends hw₁ le₂ hout.atMost.valid hout.logged
    refine ⟨(TotalAtMost.cons (hout.atMost.of_extends hw₁ le₂) total).mono share,
      (hout.logged.of_extends hw₁ le₂).append logged, List.forall_mem_cons.2 ⟨?_, fun m hm => ?_⟩⟩
    · exact first.mono (List.subset_append_left _ _)
    · exact (explains m hm).mono (List.subset_append_right _ _)

/-- Taking out an overlap leaves the other members as they are, and the overlap consists of members
of members. -/
theorem accounts_factorOut (accounts : Accounts v most p) (few : c ≤ most + 1)
    (h : w.store.TotalAtMost v (c + 1) ms) (nonempty : overlap ≠ [])
    (ho : ∀ m ∈ overlap, w.store.ValidNode v m) (two : 2 ≤ ms.countP (w.store.yields overlap))
    (logged : w.store.Logged v log) (each : ∀ m ∈ ms, w.store.Explains log m) :
    (Work.repetition v).Repeats (factorOutLogged p ms overlap) (factorOutLogged p ms overlap) w
      fun out w => w.store.AtMost v c out.1 ∧ w.store.Logged v out.2 ∧
        w.store.ExplainsBelow .or (log ++ out.2) out.1 := by
  have each' : ∀ o ∈ overlap, w.store.Explains log o := by
    obtain ⟨m, hm, yields⟩ := List.countP_pos_iff.1 (Nat.lt_of_lt_of_le Nat.zero_lt_two two)
    exact (each m hm).of_yields yields
  rw [factorOutLogged]
  refine .assuming fun hw => ((repeats_takeOut_twice h nonempty ho two).ensuring
    ensures_others_takeOut trivial).bind fun r w₁ hw₁ le₁ taken => ?_
  obtain ⟨⟨hr, one, le⟩, sub⟩ := taken
  have hrests : w₁.store.TotalAtMost v _ r.rests := ⟨hr.rests, Nat.le_refl _⟩
  have hothers : w₁.store.TotalAtMost v _ r.others := ⟨hr.others, Nat.le_refl _⟩
  have hoverlap : w₁.store.TotalAtMost v _ overlap :=
    ⟨fun m hm => (ho m hm).mono le₁, Nat.le_refl _⟩
  refine (repeats_combine hrests).bind fun inner w₂ hw₂ le₂ hinner => ?_
  refine (accounts (by omega) hinner).bind fun out w₃ hw₃ le₃ hout => ?_
  have below : w.store.Extends w₃.store := le₁.trans (le₂.trans le₃)
  have logged₃ := (logged.of_extends hw below).append hout.logged
  have later : ∀ m, w.store.ValidNode v m → w.store.Explains log m →
      w₃.store.Explains (log ++ out.2) m := fun m hm explains =>
    (explains.of_extends hw below hm logged).mono (List.subset_append_left _ _)
  have joined := (hoverlap.of_extends hw₁ (le₂.trans le₃)).merge (.singleton hout.atMost)
  refine (repeats_combine_explains joined logged₃ fun m hm => ?_).bind
    fun factored w₄ hw₄ le₄ hfactored => ?_
  · rcases Ascending.mem_merge.1 hm with hm | hm
    · exact later m (ho m hm) (each' m hm)
    · obtain rfl := List.mem_singleton.1 hm
      exact hout.explains.mono (List.subset_append_right _ _)
  obtain ⟨few', explains⟩ := hfactored
  have whole := (hothers.of_extends hw₁ (le₂.trans (le₃.trans le₄))).append (.singleton few')
  refine (repeats_combine_explains (c := c) (whole.mono (by omega)) (logged₃.of_extends hw₃ le₄)
    fun m hm => ?_).bind fun n w₅ _ le₅ hn => .pure fun _ => ?_
  · rcases List.mem_append.1 hm with hm | hm
    · have valid := h.valid m (sub hm)
      exact (later m valid (each m (sub hm))).of_extends hw₃ le₄ (valid.mono below) logged₃
    · obtain rfl := List.mem_singleton.1 hm
      exact explains.explains_and
  · exact ⟨hn.1, hout.logged.of_extends hw₃ (le₄.trans le₅), hn.2⟩

/-- In the end no two ANDs have a member in common. -/
theorem accounts_factorAll (accounts : Accounts v most p) (few : c ≤ most + 1) (hr : c < rounds)
    (h : w.store.AtMost v c n) (logged : w.store.Logged v log)
    (explains : w.store.ExplainsBelow .or log n) :
    (Work.repetition v).Repeats (factorAllLogged p rounds n) (factorAllLogged p rounds n) w
      fun out w => w.store.AtMost v c out.1 ∧ w.store.Logged v out.2 ∧
        w.store.Explains (log ++ out.2) out.1 ∧ ¬ w.store.Crowded out.1 := by
  induction rounds generalizing w n c log with
  | zero => omega
  | succ rounds ih =>
    rw [factorAllLogged]
    split
    · next no =>
      have apart : ¬ w.store.Crowded n := fun crowded => by simp [crowded.1] at no
      exact .pure fun _ =>
        ⟨h, Store.logged_nil, (explains.explains apart).mono (List.subset_append_left _ _), apart⟩
    next isOr =>
    rw [Bool.not_eq_true', Bool.not_eq_false, Node.isOr_iff] at isOr
    refine .assuming fun hw => repeats_check.bind fun _ w₁ hw₁ le₁ _ => ?_
    have explains := explains.of_extends hw le₁ h.valid logged
    have logged := logged.of_extends hw le₁
    have h := h.of_extends hw le₁
    have bears := Store.one_le_occurrences_of_connective? hw₁ h.valid isOr
    have le := h.le
    obtain ⟨c, rfl⟩ : ∃ i, c = i + 1 := ⟨c - 1, by omega⟩
    refine (repeats_members h isOr).bind fun ms w₂ hw₂ le₂ read => ?_
    obtain ⟨hl, hc, total⟩ := read
    have explains := explains.of_extends hw₁ le₂ h.valid logged
    have logged := logged.of_extends hw₁ le₂
    have h := h.of_extends hw₁ le₂
    refine ((repeats_bestOverlap total.valid).ensuring
      (ensures_bestOverlap_eq total.valid) rfl).bind fun out w₃ hw₃ le₃ found => ?_
    obtain ⟨hout, found⟩ := found
    have logged₃ := logged.of_extends hw₂ le₃
    cases out with
    | none =>
      have apart : ¬ w₃.store.Crowded n := by
        rw [Store.crowded_of_extends hw₂ le₃ h.valid]
        rintro ⟨-, p, hp, common⟩
        rw [Store.listOf, hl] at hp
        exact common (Store.common_eq_empty_of_argmax total.valid hc.ascending found.symm p hp)
      have explains := (explains.of_extends hw₂ le₃ h.valid logged).explains apart
      exact .pure fun _ => ⟨h.of_extends hw₂ le₃, Store.logged_nil,
        explains.mono (List.subset_append_left _ _), apart⟩
    | some overlap =>
      obtain ⟨nonempty, ho, two⟩ := hout overlap rfl
      have each : ∀ m ∈ ms, w₃.store.Explains log m := fun m hm =>
        (explains.members hw₂ isOr hl m hm).of_extends hw₂ le₃ (total.valid m hm) logged
      refine (accounts_factorOut accounts (by omega) (total.of_extends hw₂ le₃) nonempty ho two
        logged₃ each).bind fun once w₄ hw₄ le₄ honce => ?_
      obtain ⟨fewer, logged₄, explains₄⟩ := honce
      refine (ih (by omega) (by omega) fewer ((logged₃.of_extends hw₃ le₄).append logged₄)
        explains₄).bind fun rest w₅ _ le₅ hrest => .pure fun _ => ?_
      obtain ⟨fewer', logged₅, explains₅, apart⟩ := hrest
      rw [List.append_assoc] at explains₅
      exact ⟨fewer'.mono (Nat.le_succ c), (logged₄.of_extends hw₄ le₅).append logged₅, explains₅,
        apart⟩

/-- **The log explains every crowded node of the answer**, if factoring may go deeper than there are
leaves. -/
theorem accounts_factorWithin (hf : most + 1 < fuel) :
    Accounts v most (factorWithinLogged fuel) := by
  induction fuel generalizing most with
  | zero => omega
  | succ fuel ih =>
    intro w n c few h
    rw [factorWithinLogged]
    refine .assuming fun hw => repeats_check.bind fun _ w₁ hw₁ le₁ _ => ?_
    have h := h.of_extends hw le₁
    cases hk : n.connective? with
    | none => exact .pure fun _ => ⟨h, Store.logged_nil, .of_not_or hk⟩
    | some k =>
    have bears := Store.one_le_occurrences_of_connective? hw₁ h.valid hk
    have le := h.le
    obtain ⟨most, rfl⟩ : ∃ i, most = i + 1 := ⟨most - 1, by omega⟩
    have accounts : Accounts v most (factorWithinLogged fuel) := ih (by omega)
    refine (repeats_members h hk).bind fun ms w₂ hw₂ _ read => ?_
    obtain ⟨-, hc, total⟩ := read
    refine (accounts.mapM (total.members hw₂ hc few) total).bind fun outs w₃ hw₃ _ houts => ?_
    obtain ⟨total, logged, explains⟩ := houts
    refine (repeats_combine_explains total logged explains).bind fun n' w₄ hw₄ le₄ h' => ?_
    obtain ⟨h', explains⟩ := h'
    have logged := logged.of_extends hw₃ le₄
    cases k with
    | and => exact .pure fun _ => ⟨h', logged, explains.explains_and⟩
    | or =>
      refine (accounts_factorAll accounts few (by omega) h' logged explains).bind
        fun all w₅ hw₅ le₅ hall => ?_
      obtain ⟨fewer, logged', explains, apart⟩ := hall
      have logged := (logged.of_extends hw₄ le₅).append logged'
      refine (repeats_prune fewer).of_run.bind fun r w₆ _ le₆ ⟨hr, run⟩ => .pure fun _ =>
        ⟨hr, ?_, ?_⟩
      · have last : w₆.store.Logged v [⟨all.1, r⟩] := by
          refine ⟨?_, ?_, ?_⟩
          · simpa using ⟨w₅, w₆, run⟩
          · simpa using fewer.valid.mono le₆
          · simpa [Store.crowded_of_extends hw₅ le₆ fewer.valid] using apart
        exact (logged.of_extends hw₅ le₆).append last
      · exact (explains.of_extends hw₅ le₆ fewer.valid logged).prune

theorem accounted_factorLogged (hw : w.store.Valid v) (hn : w.store.ValidNode v n) {w' : Work}
    {out : Node × List Pruning} (run : factorLogged n w = .ok out w') :
    Accounted v w'.store (w.store.occurrences n) out := by
  have effort := Store.occurrences_add_lt_effort hw (.refl w.store) hn
  have nodes : 1 ≤ UInt32.size := by decide
  have accounts : Accounts v (w.store.occurrences n) (factorWithinLogged (w.store.effort n)) :=
    accounts_factorWithin (by omega)
  obtain ⟨-, -, accounted, -⟩ := accounts (Nat.le_refl _) ⟨hn, Nat.le_refl _⟩ hw out w' run
  exact accounted

end Pass

theorem Forest.run_map {α β : Type} (g : α → β) (x : Pass α) : run (g <$> x) = g <$> run x := by
  funext ⟨⟨translator, store, roots⟩, budget⟩
  rw [map_eq_pure_bind, map_eq_pure_bind]
  cases eq : x ⟨store, budget⟩ with
  | ok a w => rw [run_eq_ok ((bind_eq_of_ok eq).trans rfl), bind_eq_of_ok (run_eq_ok eq)]; rfl
  | error failure w =>
    rw [run_eq_error (bind_eq_of_error eq), bind_eq_of_error (run_eq_error eq)]

/-- **In what a node is factored to, pruning brought in every OR of which two ANDs have a member in
common**: it occurs in the answer of some run of pruning, and not in what went into it. And no node
that goes into pruning is such an OR. -/
theorem Session.Reached.overlaps_factored_out {x : Session} {n n' : Node} {budget budget' : Budget}
    {f : Forest} (h : x.Reached) (hn : x.Usable n)
    (run : Forest.run (Pass.factor n) (x.forest, budget) = .ok n' (f, budget')) :
    ∃ log, Forest.run (Pass.factorLogged n) (x.forest, budget) = .ok (n', log) (f, budget') ∧
      (∀ p ∈ log, (∃ w w', Pass.prune p.before w = .ok p.after w') ∧
        ¬ f.store.Crowded p.before) ∧
      ∀ q, f.store.Occurs q n' → f.store.Crowded q →
        ∃ p ∈ log, f.store.Occurs q p.after ∧ ¬ f.store.Occurs q p.before := by
  have sound := h.sound
  rw [← Pass.fst_factorLogged, Forest.run_map, map_eq_pure_bind] at run
  obtain ⟨⟨n', log⟩, g, logged, last⟩ := exists_of_bind_eq_ok run
  cases last
  have accounted := Pass.accounted_factorLogged (w := ⟨x.forest.store, budget⟩)
    sound.forest.store (sound.validNode hn) (Forest.pass_eq_ok_of_run logged)
  refine ⟨log, logged, fun p hp => ?_, fun q occurs crowded => ?_⟩
  · exact ⟨accounted.logged.runs p hp, accounted.logged.apart p hp⟩
  · obtain ⟨p, hp, brings⟩ := accounted.explains q occurs crowded
    exact ⟨p, hp, brings.after, brings.before⟩

namespace Sample

/-- The node of `a > x AND a = x`. -/
def upper : Node := .combined .and 0

/-- The node of `a < x AND a CONTAINS x`. -/
def lower : Node := .combined .and 1

/-- The node of the OR of the two. -/
def parted : Node := .combined .or 2

/-- The node of `a IS NOT UNKNOWN AND ((a > x AND a = x) OR (a < x AND a CONTAINS x))`. -/
def guarded : Node := .combined .and 3

/-- The node of `a = x AND a CONTAINS x`. -/
def spot : Node := .combined .and 4

/-- The node of the OR of the last two. -/
def crowding : Node := .combined .or 5

/-- The node of `(a > x AND a = x) OR (a < x AND a CONTAINS x) OR (a = x AND a CONTAINS x)`. -/
def crowd : Node := .combined .or 6

/-- The store of the two ANDs of leaves. -/
def lowerStore : Store :=
  reachingStore.push [less, containing] (Store.find?_eq_none (by decide))

/-- The store with the list of their OR besides. -/
def partedStore : Store := lowerStore.push [upper, lower] (Store.find?_eq_none (by decide))

/-- The store with the list of `guarded` besides. -/
def guardedStore : Store := partedStore.push [known, parted] (Store.find?_eq_none (by decide))

/-- The store with the list of `spot` besides. -/
def spotStore : Store := guardedStore.push [equal, containing] (Store.find?_eq_none (by decide))

/-- The store with the list of `crowding` besides. -/
def crowdingStore : Store := spotStore.push [guarded, spot] (Store.find?_eq_none (by decide))

/-- The store with the list of `crowd` besides. -/
def crowdStore : Store := crowdingStore.push [upper, lower, spot] (Store.find?_eq_none (by decide))

/-- The session in which the nodes were built, one after the other. -/
def crowded : Session :=
  ⟨⟨.ofVocabulary vocabulary, crowdingStore, []⟩, [crowding], [spot, guarded, parted, lower, upper]⟩

theorem reached_crowded : crowded.Reached := by
  have usable : ∀ {x : Session} {n : Node} {l : Leaf}, x.forest.vocabulary = vocabulary →
      vocabulary.Codes l n → x.Usable n := fun same code =>
    .leaf (same ▸ Vocabulary.encodes_iff.2 ⟨_, code⟩)
  have joined₀ : (Store.empty Store.defaultThreshold).combine .and [greater, equal] =
      .ok (upper, reachingStore) :=
    Store.combine_of_new (by rfl) (by decide) (by decide) (by decide)
  have joined₁ : reachingStore.combine .and [less, containing] = .ok (lower, lowerStore) :=
    Store.combine_of_new (by rfl) (by decide) (by decide) (by decide)
  have joined₂ : lowerStore.combine .or [upper, lower] = .ok (parted, partedStore) :=
    Store.combine_of_new (by rfl) (by decide) (by decide) (by decide)
  have joined₃ : partedStore.combine .and [known, parted] = .ok (guarded, guardedStore) :=
    Store.combine_of_new (by rfl) (by decide) (by decide) (by decide)
  have joined₄ : guardedStore.combine .and [equal, containing] = .ok (spot, spotStore) :=
    Store.combine_of_new (by rfl) (by decide) (by decide) (by decide)
  have joined₅ : spotStore.combine .or [guarded, spot] = .ok (crowding, crowdingStore) :=
    Store.combine_of_new (by rfl) (by decide) (by decide) (by decide)
  have first := (Session.Reached.ofVocabulary vocabulary).combine (List.forall_mem_cons.2
    ⟨usable rfl codes_greater, List.forall_mem_singleton.2 (usable rfl codes_equal)⟩) joined₀
  have second := first.combine (List.forall_mem_cons.2
    ⟨usable rfl codes_less, List.forall_mem_singleton.2 (usable rfl codes_containing)⟩) joined₁
  have third := second.combine (List.forall_mem_cons.2
    ⟨.combined (by decide) rfl (.inr (.inl (by decide))),
      List.forall_mem_singleton.2 (.combined (by decide) rfl (.inl (by decide)))⟩) joined₂
  have fourth := third.combine (List.forall_mem_cons.2
    ⟨usable rfl codes_known,
      List.forall_mem_singleton.2 (.combined (by decide) rfl (.inl (by decide)))⟩) joined₃
  have fifth := fourth.combine (List.forall_mem_cons.2
    ⟨usable rfl codes_equal, List.forall_mem_singleton.2 (usable rfl codes_containing)⟩) joined₄
  exact fifth.combine (List.forall_mem_cons.2
    ⟨.combined (by decide) rfl (.inr (.inl (by decide))),
      List.forall_mem_singleton.2 (.combined (by decide) rfl (.inl (by decide)))⟩) joined₅

theorem usable_crowding : crowded.Usable crowding :=
  .combined (by decide) rfl (.inl (List.mem_singleton_self _))

/-! ### Pruning brings an overlap back -/

theorem valid_crowding : crowdingStore.Valid vocabulary := reached_crowded.sound.forest.store

theorem joined_crowd : crowdingStore.combine .or [parted, spot] = .ok (crowd, crowdStore) :=
  Store.combine_of_new (by rfl) (by decide) (by decide) (by decide)

theorem valid_crowd : crowdStore.Valid vocabulary ∧ crowdStore.ValidNode vocabulary crowd := by
  have members := valid_crowding.members
  have valid : ∀ m ∈ [parted, spot], crowdingStore.ValidNode vocabulary m :=
    List.forall_mem_cons.2 ⟨members 3 _ rfl parted (by decide),
      List.forall_mem_singleton.2 (members 5 _ rfl spot (by decide))⟩
  obtain ⟨valid, -, node⟩ := Store.valid_of_combine valid_crowding valid joined_crowd
  exact ⟨valid, node⟩

theorem terms_parted : crowdingStore.Terms [upper, lower] [[greater, equal], [less, containing]] :=
  .cons ⟨rfl, rfl, by decide⟩ (.cons ⟨rfl, rfl, by decide⟩ .nil)

theorem terms_crowd : crowdStore.Terms [upper, lower, spot]
    [[greater, equal], [less, containing], [equal, containing]] :=
  .cons ⟨rfl, rfl, by decide⟩ (.cons ⟨rfl, rfl, by decide⟩ (.cons ⟨rfl, rfl, by decide⟩ .nil))

theorem irreducible_parted : crowdingStore.Irreducible [] parted :=
  terms_parted.irreducible rfl rfl (by decide) (by decide) (by decide)

theorem irreducible_crowd : crowdStore.Irreducible [] crowd :=
  terms_crowd.irreducible rfl rfl (by decide) (by decide) (by decide)

theorem irreducible_spot : crowdingStore.Irreducible [] spot :=
  .of_leaves rfl rfl (by decide) (by decide) (by decide)

section Runs

variable {fuel : Nat}

/-- The check that `a` is known is implied by the OR and goes, and the OR is left. -/
theorem becomes_guarded : Pass.Becomes (Pass.pruneWithin (fuel + 3) guarded []) crowdingStore parted
    crowdingStore := by
  have valid : crowdingStore.ValidNode vocabulary parted :=
    valid_crowding.members 3 _ rfl parted (by decide)
  have settled : crowdingStore.settledBy known [parted] = .ok (some true) := rfl
  have pruned : Pass.Becomes (Pass.pruneMembers (Pass.pruneWithin (fuel + 2)) .and []
      [known, parted]) crowdingStore (some [.all, parted]) crowdingStore := by
    refine Pass.becomes_pruneMembers [⟨parted, some parted⟩]
      (.of_still fun _ => .pure fun _ => rfl) ?_
    refine Pass.becomes_pruneFrom_cons
      (Pass.becomes_pruneWithin_of_settled (by decide) settled) (by decide) (.pure none) ?_
    exact Pass.becomes_pruneFrom_nil (.of_still fun _ =>
      Pass.spares_pruneWithin valid_crowding _ valid irreducible_parted) (by decide)
  have joined : crowdingStore.combine .and [.all, parted] = .ok (parted, crowdingStore) := rfl
  refine Pass.becomes_pruneWithin valid_crowding rfl (fun a ha => by cases ha) ?_ (by decide) valid
    rfl irreducible_parted
  exact Pass.becomes_pruneOnce_of_kept rfl rfl (by simp) pruned joined
    (Pass.becomes_applyAdvice_of_ne (by decide))

/-- Next to `spot` the members of the OR are members of the whole. -/
theorem becomes_crowding : Pass.Becomes (Pass.prune crowding) crowdingStore crowd crowdStore := by
  have valid : crowdingStore.ValidNode vocabulary spot :=
    valid_crowding.members 5 _ rfl spot (by decide)
  obtain ⟨valid', node⟩ := valid_crowd
  have pruned : ∀ {fuel}, Pass.Becomes (Pass.pruneMembers (Pass.pruneWithin (fuel + 3)) .or []
      [guarded, spot]) crowdingStore (some [parted, spot]) crowdingStore := fun {fuel} => by
    refine Pass.becomes_pruneMembers [⟨spot, none⟩] (.of_still fun _ => .pure fun _ => rfl) ?_
    refine Pass.becomes_pruneFrom_cons becomes_guarded (by decide)
      (Pass.becomes_premise_or rfl) ?_
    exact Pass.becomes_pruneFrom_nil (.of_still fun _ =>
      Pass.spares_pruneWithin valid_crowding _ valid irreducible_spot) (by decide)
  refine Pass.becomes_of_effort (x := (Pass.pruneWithin · crowding [])) fun fuel => ?_
  refine Pass.becomes_pruneWithin valid' rfl (fun a ha => by cases ha) ?_ (by decide) node rfl
    irreducible_crowd
  exact Pass.becomes_pruneOnce rfl rfl (fun _ => rfl) pruned joined_crowd rfl rfl
    (irreducible_crowd.retained rfl rfl)

end Runs

/-- There is nothing to factor before that. -/
theorem factor_crowding : Pass.Becomes (Pass.factor crowding) crowdingStore crowd crowdStore := by
  have valid := valid_crowding.members
  have kept : ∀ {fuel} {w : Work}, (Work.still crowdingStore).Ensures
      (Pass.factorWithin (fuel + 1) guarded) w fun n _ => n = guarded := by
    intro fuel w
    refine Pass.still_factorWithin_of_kept valid_crowding (valid 5 _ rfl guarded (by decide)) rfl
      rfl fun m hm w => ?_
    rcases List.mem_pair.1 hm with rfl | rfl
    · exact Pass.still_factorWithin valid_crowding (valid 3 _ rfl known (by decide)) (.inr rfl)
    · exact Pass.still_factorWithin_of_apart valid_crowding (valid 3 _ rfl parted (by decide)) rfl
        rfl terms_parted (by decide) irreducible_parted
  refine Pass.becomes_of_effort (x := (Pass.factorWithin · crowding)) fun fuel => ?_
  have here : crowdingStore.ValidNode vocabulary crowding :=
    reached_crowded.sound.validNode usable_crowding
  refine Pass.becomes_factorWithin valid_crowding here rfl rfl (fun m hm w => ?_) rfl (by decide)
    becomes_crowding
  rcases List.mem_pair.1 hm with rfl | rfl
  · exact kept
  · exact Pass.still_factorWithin valid_crowding (valid 5 _ rfl spot (by decide)) (.inr rfl)

/-- `upper` and `spot` are members of what comes of it, and both contain `a = x`. -/
theorem crowded_crowd : crowdStore.Crowded crowd := ⟨rfl, (upper, spot), by decide, by decide⟩

theorem run_crowding : ∃ used,
    Forest.run (Pass.factor crowding) (crowded.forest, .fresh .unlimited) =
      .ok crowd ({ crowded.forest with store := crowdStore }, ⟨.unlimited, used⟩) :=
  Forest.run_of_becomes (Pass.composed_factor crowding) factor_crowding fun _ => rfl

/-- After factoring, two ANDs of an OR may have a member in common. -/
theorem overlap_after_factoring : crowded.Reached ∧ crowded.Usable crowding ∧
    ∃ used f, Forest.run (Pass.factor crowding) (crowded.forest, .fresh .unlimited) =
      .ok crowd (f, ⟨.unlimited, used⟩) ∧ f.store.Occurs crowd crowd ∧ crowd.isOr = true ∧
      ∃ p ∈ Store.andPairs (f.store.listOf crowd), f.store.common p ≠ ∅ := by
  obtain ⟨used, run⟩ := run_crowding
  exact ⟨reached_crowded, usable_crowding, used, _, run, .self, crowded_crowd⟩

/-- The run of pruning that brought it in. -/
theorem crowd_brought_in : ∃ used log,
    Forest.run (Pass.factorLogged crowding) (crowded.forest, .fresh .unlimited) =
      .ok (crowd, log) ({ crowded.forest with store := crowdStore }, ⟨.unlimited, used⟩) ∧
    (∀ p ∈ log, ¬ crowdStore.Crowded p.before) ∧
    ∃ p ∈ log, (∃ w w', Pass.prune p.before w = .ok p.after w') ∧
      crowdStore.Occurs crowd p.after ∧ ¬ crowdStore.Occurs crowd p.before := by
  obtain ⟨used, run⟩ := run_crowding
  obtain ⟨log, logged, runs, brought⟩ := reached_crowded.overlaps_factored_out usable_crowding run
  obtain ⟨p, hp, after, before⟩ := brought crowd .self crowded_crowd
  exact ⟨used, log, logged, fun p hp => (runs p hp).2, p, hp, (runs p hp).1, after, before⟩

end Sample

end Criteria
