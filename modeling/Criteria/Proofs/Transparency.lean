import Criteria.Proofs.Composition
import Criteria.Proofs.Session

/-!
# Budgets are transparent

**Theorem (`budget_transparency`).** A budget never changes what a run comes to, only whether it
comes to it. If a run without a limit passes `u` checks, then a run with `u` steps or more ends in
the same way, in the same forest, and has used `u` of them; with fewer it uses up all of them and
fails for this reason.

A limit either lets all checks of an unlimited run pass (`Limit.Passes`) or there is a first one at
which it stops the run (`Limit.Stops`). Of two computations in a row, either it stops the first, or
it lets the first pass and the second goes on from the same state. So what holds of a check and of
building holds of every pass (`Pass.Composed.transparent`).

The `u` is the count that the budget keeps. What it counts is said apart from it: `Pass.Makes`
counts the checks on the way of a run by how the pass is put together, and without a limit the
budget comes to the same number (`Forest.checks_counted`).
-/

namespace Criteria

/-- The end of a computation, with an answer or a failure. -/
def ending {ε σ α : Type} : Except ε α → σ → EStateM.Result ε σ α
  | .ok a, s => .ok a s
  | .error e, s => .error e s

/-! ## Limits -/

namespace Limit

variable {limit : Limit} {i j k m most : Nat} {o : Overrun}

/-- All checks from count `i` on and before count `j` pass. -/
def Passes (limit : Limit) (i j : Nat) : Prop :=
  ∀ k, i ≤ k → k < j → (Budget.mk limit k).overrun? = none

/-- Of the checks from count `i` on and before count `j`, that at count `k` is the first that does
not pass. -/
structure Stops (limit : Limit) (i j k : Nat) (o : Overrun) : Prop where
  le : i ≤ k
  lt : k < j
  passes : limit.Passes i k
  overrun : (Budget.mk limit k).overrun? = some o

theorem Passes.left (h : limit.Passes i m) (le : j ≤ m) : limit.Passes i j :=
  fun k hi hj => h k hi (Nat.lt_of_lt_of_le hj le)

theorem Passes.right (h : limit.Passes i m) (le : i ≤ j) : limit.Passes j m :=
  fun k hj hm => h k (Nat.le_trans le hj) hm

/-- A limit that stops a run stops it on the way to a state or later. -/
theorem Stops.split (h : limit.Stops i m k o) (le : i ≤ j) :
    limit.Stops i j k o ∨ limit.Passes i j ∧ limit.Stops j m k o := by
  rcases Nat.lt_or_ge k j with lt | ge
  · exact .inl ⟨h.le, lt, h.passes, h.overrun⟩
  · exact .inr ⟨h.passes.left ge, ge, h.lt, h.passes.right le, h.overrun⟩

theorem passes_or_stops (limit : Limit) (i j : Nat) :
    limit.Passes i j ∨ ∃ k o, limit.Stops i j k o := by
  induction j with
  | zero => exact .inl fun k _ lt => (Nat.not_lt_zero k lt).elim
  | succ j ih =>
    rcases ih with passes | ⟨k, o, stops⟩
    · rcases Nat.lt_or_ge j i with lt | ge
      · exact .inl fun k hi hj => by omega
      cases last : (Budget.mk limit j).overrun? with
      | none =>
        refine .inl fun k hi hj => ?_
        rcases Nat.lt_succ_iff_lt_or_eq.1 hj with lt | rfl
        · exact passes k hi lt
        · exact last
      | some o => exact .inr ⟨j, o, ge, Nat.lt_succ_self j, passes, last⟩
    · exact .inr ⟨k, o, stops.le, Nat.lt_succ_of_lt stops.lt, stops.passes, stops.overrun⟩

theorem passes_steps (le : j ≤ most) : (steps most).Passes i j := by
  intro k _ lt
  simp only [Budget.overrun?, if_pos (Nat.lt_of_lt_of_le lt le)]

theorem stops_steps (le : i ≤ most) (lt : most < j) :
    (steps most).Stops i j most (.steps most) where
  le := le
  lt := lt
  passes := passes_steps (Nat.le_refl most)
  overrun := by simp only [Budget.overrun?, if_neg (Nat.lt_irrefl most)]

end Limit

/-! ## Transparency -/

section Transparent

variable {σ τ α β : Type} {put : τ → Budget → σ} {x : EStateM Failure σ α}
  {f : α → EStateM Failure σ β}

/-- What a run without a limit comes to from `t` on, which is no overrun, and what then becomes of
it under any other limit; `put` gives a state its budget. -/
def TransparentAt (put : τ → Budget → σ) (x : EStateM Failure σ α) (t : τ) (used : Nat) : Prop :=
  ∃ out u used', used ≤ used' ∧ (∀ o, out ≠ .error (.overrun o)) ∧
    x (put t ⟨.unlimited, used⟩) = ending out (put u ⟨.unlimited, used'⟩) ∧
    ∀ limit : Limit,
      (limit.Passes used used' → x (put t ⟨limit, used⟩) = ending out (put u ⟨limit, used'⟩)) ∧
      ∀ k o, limit.Stops used used' k o →
        ∃ u', x (put t ⟨limit, used⟩) = .error (.overrun o) (put u' ⟨limit, k⟩)

/-- A computation that does not look at its budget. -/
theorem TransparentAt.of_eq {t u : τ} {out : Except Failure α}
    (h : ∀ budget, x (put t budget) = ending out (put u budget))
    (fault : ∀ o, out ≠ .error (.overrun o)) (used : Nat) : TransparentAt put x t used := by
  refine ⟨out, u, used, Nat.le_refl used, fault, h _, fun limit => ⟨fun _ => h _, ?_⟩⟩
  intro k o stops
  exact absurd stops.lt (Nat.not_lt.2 stops.le)

/-- A limit either makes no difference to a computation or stops it. -/
def Transparent (put : τ → Budget → σ) (x : EStateM Failure σ α) : Prop :=
  ∀ t used, TransparentAt put x t used

namespace Transparent

theorem pure (a : α) : Transparent put (pure a : EStateM Failure σ α) := fun t =>
  .of_eq (show ∀ budget, _ = ending (.ok a) (put t budget) from fun _ => rfl) (by simp)

theorem bind (hx : Transparent put x) (hf : ∀ a, Transparent put (f a)) :
    Transparent put (x >>= f) := by
  intro t used
  obtain ⟨out, u, used₁, le₁, fault₁, run₁, limited₁⟩ := hx t used
  cases out with
  | error e =>
    have fault : ∀ o, (.error e : Except Failure β) ≠ .error (.overrun o) := by
      rintro o ⟨⟩
      exact fault₁ o rfl
    refine ⟨.error e, u, used₁, le₁, fault, bind_eq_of_error run₁, fun limit =>
      ⟨fun passes => ?_, fun k o stops => ?_⟩⟩
    · exact bind_eq_of_error ((limited₁ limit).1 passes)
    · obtain ⟨u', run⟩ := (limited₁ limit).2 k o stops
      exact ⟨u', bind_eq_of_error run⟩
  | ok a =>
    obtain ⟨out, w, used₂, le₂, fault₂, run₂, limited₂⟩ := hf a u used₁
    refine ⟨out, w, used₂, Nat.le_trans le₁ le₂, fault₂, (bind_eq_of_ok run₁).trans run₂,
      fun limit => ⟨fun passes => ?_, fun k o stops => ?_⟩⟩
    · have first := (limited₁ limit).1 (passes.left le₂)
      exact (bind_eq_of_ok first).trans ((limited₂ limit).1 (passes.right le₁))
    · rcases stops.split le₁ with stops | ⟨passes, stops⟩
      · obtain ⟨u', run⟩ := (limited₁ limit).2 k o stops
        exact ⟨u', bind_eq_of_error run⟩
      · obtain ⟨w', run⟩ := (limited₂ limit).2 k o stops
        exact ⟨w', (bind_eq_of_ok ((limited₁ limit).1 passes)).trans run⟩

end Transparent

end Transparent

/-! ## Passes -/

namespace Pass

variable {α : Type}

theorem transparent_check : Transparent Work.mk check := by
  intro s used
  have pass {limit : Limit} (h : (Budget.mk limit used).overrun? = none) :
      check ⟨s, ⟨limit, used⟩⟩ = .ok () ⟨s, ⟨limit, used + 1⟩⟩ := by
    rw [check, Budget.check, h]
  have stop {limit : Limit} {o : Overrun} (h : (Budget.mk limit used).overrun? = some o) :
      check ⟨s, ⟨limit, used⟩⟩ = .error (.overrun o) ⟨s, ⟨limit, used⟩⟩ := by
    rw [check, Budget.check, h]
  refine ⟨.ok (), s, used + 1, Nat.le_succ used, by simp, pass rfl, fun limit =>
    ⟨fun passes => ?_, fun k o stops => ⟨s, ?_⟩⟩⟩
  · exact pass (passes used (Nat.le_refl used) (Nat.lt_succ_self used))
  · obtain rfl : used = k := Nat.le_antisymm stops.le (Nat.le_of_lt_succ stops.lt)
    exact stop stops.overrun

theorem transparent_build (x : Build α) : Transparent Work.mk (build x) := by
  intro s
  cases run : x s with
  | ok a t =>
    have eq : ∀ budget, build x ⟨s, budget⟩ = ending (.ok a) ⟨t, budget⟩ := fun budget => by
      simp only [build, run, ending]
    exact .of_eq eq (by simp)
  | error fault t =>
    have eq : ∀ budget, build x ⟨s, budget⟩ = ending (.error (.fault fault)) ⟨t, budget⟩ :=
      fun budget => by simp only [build, run, ending]
    exact .of_eq eq (by simp)

/-! ### Checks on the way -/

/-- A pass that is run on `w` makes `n` checks, whatever its budget says. -/
inductive Makes : {α : Type} → Pass α → Work → Nat → Prop
  | pure {α : Type} (a : α) (w : Work) : Makes (pure a) w 0
  | check (w : Work) : Makes Pass.check w 1
  | build {α : Type} (x : Build α) (w : Work) : Makes (build x) w 0
  | bind {α β : Type} {x : Pass α} {f : α → Pass β} {a : α} {w w' : Work} {m n : Nat} :
      Makes x w m → x w = .ok a w' → Makes (f a) w' n → Makes (x >>= f) w (m + n)
  | stop {α β : Type} {x : Pass α} {f : α → Pass β} {failure : Failure} {w w' : Work} {m : Nat} :
      Makes x w m → x w = .error failure w' → Makes (x >>= f) w m

theorem Composed.exists_makes {x : Pass α} (h : Composed x) (w : Work) : ∃ n, Makes x w n := by
  induction h generalizing w with
  | pure a => exact ⟨0, .pure a w⟩
  | check => exact ⟨1, .check w⟩
  | build _ => exact ⟨0, .build _ w⟩
  | @bind _ _ x f _ _ hx hf =>
    obtain ⟨m, first⟩ := hx w
    cases run : x w with
    | ok a w' =>
      obtain ⟨n, rest⟩ := hf a w'
      exact ⟨m + n, .bind first run rest⟩
    | error failure w' => exact ⟨m, .stop first run⟩

/-- Without a limit the budget counts the checks. -/
theorem Makes.counted {x : Pass α} {w : Work} {n : Nat} (h : Makes x w n)
    (unlimited : w.budget.limit = .unlimited) :
    ∃ out s, x w = ending out ⟨s, ⟨.unlimited, w.budget.used + n⟩⟩ := by
  induction h with
  | pure a w =>
    obtain ⟨s, ⟨limit, used⟩⟩ := w
    obtain rfl := unlimited
    exact ⟨.ok a, s, rfl⟩
  | check w =>
    obtain ⟨s, ⟨limit, used⟩⟩ := w
    obtain rfl := unlimited
    exact ⟨.ok (), s, rfl⟩
  | build x w =>
    obtain ⟨s, ⟨limit, used⟩⟩ := w
    obtain rfl := unlimited
    cases run : x s with
    | ok a t => exact ⟨.ok a, t, by simp only [Pass.build, run, ending, Nat.add_zero]⟩
    | error fault t =>
      exact ⟨.error (.fault fault), t, by simp only [Pass.build, run, ending, Nat.add_zero]⟩
  | @bind _ _ x f a w w' m n _ run _ hx hf =>
    obtain ⟨out, s, first⟩ := hx unlimited
    rw [run] at first
    cases out with
    | error failure => cases first
    | ok a =>
      cases first
      obtain ⟨out, t, rest⟩ := hf rfl
      refine ⟨out, t, (bind_eq_of_ok run).trans ?_⟩
      rw [rest, Nat.add_assoc]
  | @stop _ _ x f failure w w' m _ run hx =>
    obtain ⟨out, s, first⟩ := hx unlimited
    rw [run] at first
    cases out with
    | ok a => cases first
    | error failure =>
      cases first
      exact ⟨.error failure, s, bind_eq_of_error run⟩

/-! ### Composing -/

/-- A limit either makes no difference to a pass or stops it. -/
theorem Composed.transparent {x : Pass α} (h : Composed x) : Transparent Work.mk x := by
  induction h with
  | pure a => exact .pure a
  | check => exact transparent_check
  | build _ => exact transparent_build _
  | bind _ _ hx hf => exact hx.bind hf

end Pass

theorem Rewriting.composed_pass (x : Rewriting) (n : Node) : (x.pass n).Composed := by
  cases x with
  | prune => exact Pass.composed_prune n
  | distribute cleanup => exact Pass.composed_distribute cleanup n
  | factor => exact Pass.composed_factor n

/-! ## Runs -/

namespace Forest

variable {α : Type}

/-- What a budget makes of a run from a forest. -/
theorem transparent_run {x : Pass α} (h : x.Composed) : Transparent Prod.mk (run x) := by
  rintro ⟨translator, s, roots⟩ used
  obtain ⟨out, t, used', le, fault, unlimited, limited⟩ := h.transparent s used
  have lift : ∀ {budget out t budget'}, x ⟨s, budget⟩ = ending out ⟨t, budget'⟩ →
      run x (⟨translator, s, roots⟩, budget) = ending out (⟨translator, t, roots⟩, budget') := by
    intro budget out t budget' eq
    simp only [run, eq]
    cases out <;> rfl
  refine ⟨out, ⟨translator, t, roots⟩, used', le, fault, lift unlimited, fun limit =>
    ⟨fun passes => lift ((limited limit).1 passes), fun k o stops => ?_⟩⟩
  obtain ⟨u, stopped⟩ := (limited limit).2 k o stops
  have stopped : x ⟨s, ⟨limit, used⟩⟩ = ending (.error (.overrun o)) ⟨u, ⟨limit, k⟩⟩ := stopped
  exact ⟨⟨translator, u, roots⟩, lift stopped⟩

/-- What a budget without a limit has counted after a run are the checks on the way. -/
theorem checks_counted {x : Pass α} (h : x.Composed) (f : Forest) :
    ∃ n out g, x.Makes ⟨f.store, .fresh .unlimited⟩ n ∧
      run x (f, .fresh .unlimited) = ending out (g, ⟨.unlimited, n⟩) := by
  obtain ⟨n, makes⟩ := h.exists_makes ⟨f.store, .fresh .unlimited⟩
  obtain ⟨out, s, counted⟩ := makes.counted rfl
  obtain ⟨translator, store, roots⟩ := f
  refine ⟨n, out, ⟨translator, s, roots⟩, makes, ?_⟩
  simp only [run, counted]
  cases out with
  | ok a => simp [ending, Budget.fresh]
  | error failure => simp [ending, Budget.fresh]

/-- Without a limit no run is stopped. -/
theorem ne_overrun_of_unlimited {x : Pass α} (h : x.Composed) {f g : Forest} {used : Nat}
    {failure : Failure} {budget : Budget}
    (failed : run x (f, ⟨.unlimited, used⟩) = .error failure (g, budget)) (o : Overrun) :
    failure ≠ .overrun o := by
  obtain ⟨out, g', used', -, never, unlimited, -⟩ := transparent_run h f used
  rw [failed] at unlimited
  cases out with
  | ok a => cases unlimited
  | error failure =>
    cases unlimited
    exact fun eq => never o (congrArg Except.error eq)

theorem transparent_modify (f : Forest → Forest) :
    Transparent Prod.mk (modify fun (g, budget) => (f g, budget) : Run Unit) := fun g =>
  .of_eq (show ∀ budget, _ = ending (.ok ()) (f g, budget) from fun _ => rfl) (by simp)

theorem transparent_mapRoots {x : Node → Pass Node} (h : ∀ n, (x n).Composed) :
    Transparent Prod.mk (mapRoots x) := by
  intro f
  have mapped : Transparent Prod.mk (do
      let roots ← run (f.roots.mapM x)
      modify fun (f, budget) => ({ f with roots }, budget)) :=
    (transparent_run (.mapM h f.roots)).bind fun roots => transparent_modify _
  exact mapped f

theorem transparent_simplify (cleanup housekeeping : Nat) :
    Transparent Prod.mk (simplify cleanup housekeeping) :=
  (transparent_modify _).bind fun _ => transparent_mapRoots (Pass.composed_simplify cleanup)

/-- A run without a limit passes some number of checks. Under a budget of as many steps it ends in
the same way, in the same forest, having used as many; under a smaller one it uses up all of it and
fails for this reason. No limit whatsoever changes what it comes to: either it comes to this, or it
is stopped before. -/
def Run.StepTransparent (y : Run α) (f : Forest) : Prop :=
  ∃ out g used, y (f, .fresh .unlimited) = ending out (g, ⟨.unlimited, used⟩) ∧
    (∀ most, used ≤ most →
      y (f, .fresh (.steps most)) = ending out (g, ⟨.steps most, used⟩)) ∧
    (∀ most, most < used → ∃ g',
      y (f, .fresh (.steps most)) = .error (.overrun (.steps most)) (g', ⟨.steps most, most⟩)) ∧
    ∀ limit, y (f, .fresh limit) = ending out (g, ⟨limit, used⟩) ∨
      ∃ o g' k, k < used ∧ y (f, .fresh limit) = .error (.overrun o) (g', ⟨limit, k⟩)

theorem Run.stepTransparent {y : Run α} (h : Transparent Prod.mk y) (f : Forest) :
    y.StepTransparent f := by
  obtain ⟨out, g, used, -, -, unlimited, limited⟩ := h f 0
  refine ⟨out, g, used, unlimited, fun most le => ?_, fun most lt => ?_, fun limit => ?_⟩
  · exact (limited (.steps most)).1 (Limit.passes_steps le)
  · exact (limited (.steps most)).2 _ _ (Limit.stops_steps (Nat.zero_le most) lt)
  · rcases limit.passes_or_stops 0 used with passes | ⟨k, o, stops⟩
    · exact .inl ((limited limit).1 passes)
    · obtain ⟨g', stopped⟩ := (limited limit).2 k o stops
      exact .inr ⟨o, g', k, stops.lt, stopped⟩

end Forest

/-- A budget never changes what a pass, a pass over all roots or a simplification comes to, only
whether it comes to it. -/
theorem budget_transparency (f : Forest) :
    (∀ (x : Rewriting) (n : Node), (Forest.run (x.pass n)).StepTransparent f) ∧
    (∀ (n : Node) (assumptions : List Node),
      (Forest.run (Pass.pruneUnder n assumptions)).StepTransparent f) ∧
    (∀ x : Rewriting, (Forest.mapRoots x.pass).StepTransparent f) ∧
    (∀ cleanup housekeeping : Nat, (Forest.simplify cleanup housekeeping).StepTransparent f) := by
  refine ⟨fun x n => ?_, fun n assumptions => ?_, fun x => ?_, fun cleanup housekeeping => ?_⟩
  · exact Forest.Run.stepTransparent (Forest.transparent_run (x.composed_pass n)) f
  · exact Forest.Run.stepTransparent
      (Forest.transparent_run (Pass.composed_pruneUnder n assumptions)) f
  · exact Forest.Run.stepTransparent (Forest.transparent_mapRoots x.composed_pass) f
  · exact Forest.Run.stepTransparent (Forest.transparent_simplify cleanup housekeeping) f

/-- The AND is pruned in 6 checks, so 6 steps are enough and 5 are not. -/
theorem Sample.pruned_in_six :
    (∀ most, 6 ≤ most → Forest.run (Pass.prune both) (session.forest, .fresh (.steps most)) =
      .ok equal (session.forest, ⟨.steps most, 6⟩)) ∧
    ∃ g, Forest.run (Pass.prune both) (session.forest, .fresh (.steps 5)) =
      .error (.overrun (.steps 5)) (g, ⟨.steps 5, 5⟩) := by
  obtain ⟨out, g, used, unlimited, enough, short, -⟩ :=
    (budget_transparency session.forest).1 .prune both
  have run : Forest.run (Pass.prune both) (session.forest, .fresh .unlimited) =
      ending (.ok equal) (session.forest, ⟨.unlimited, 6⟩) := rfl
  obtain ⟨rfl, rfl, rfl⟩ : out = .ok equal ∧ g = session.forest ∧ used = 6 := by
    have same := unlimited.symm.trans run
    cases out with
    | ok a =>
      cases same
      exact ⟨rfl, rfl, rfl⟩
    | error failure => cases same
  exact ⟨enough, short 5 (by decide)⟩

end Criteria
