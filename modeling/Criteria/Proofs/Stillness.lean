import Criteria.Proofs.Transparency

/-!
# Passes that change nothing

A pass that meets a node with which it is content takes it apart and joins it again from the same
members, and consolidated lists have one node. So the store stays as it is, the pass gives back the
node, and all that can happen on the way is that the limit is hit (`Forest.run_of_still`).
-/

namespace Criteria

/-- Passes that leave a store as it is, and only fail for lack of time. -/
def Work.still (s : Store) : Growth Failure Work where
  valid w := w.store = s
  le w w' := w'.budget.limit = w.budget.limit
  fails failure _ := failure.isOverrun = true
  refl _ := rfl
  trans h h' := h'.trans h

namespace Pass

variable {v : Vocabulary} {s : Store} {w : Work} {k : Connective} {n : Node} {l : List Node}
  {α : Type}

theorem still_check : (Work.still s).Ensures check w fun _ _ => True := by
  intro hw
  unfold check Budget.check
  cases w.budget.overrun? with
  | none => exact ⟨hw, rfl, trivial⟩
  | some o => exact ⟨hw, rfl, rfl⟩

theorem still_build {x : Build α} {a : α} (h : x s = .ok a s) :
    (Work.still s).Ensures (build x) w fun a' _ => a' = a := by
  obtain ⟨t, budget⟩ := w
  rintro rfl
  simp only [build, h]
  exact ⟨rfl, rfl, trivial⟩

theorem still_read {f : Store → Except Fault α} {a : α} (h : f s = .ok a) :
    (Work.still s).Ensures (read f) w fun a' _ => a' = a :=
  still_build (by rw [Build.read, h])

theorem still_mapM {f : α → Pass α} {as : List α}
    (h : ∀ a ∈ as, ∀ w, (Work.still s).Ensures (f a) w fun a' _ => a' = a) :
    (Work.still s).Ensures (as.mapM f) w fun as' _ => as' = as := by
  have each : (Work.still s).Ensures (as.mapM f) w fun as' _ =>
      List.Forall₂ (fun a a' => a' = a) as as' :=
    .mapM (P := fun _ _ => True) (fun _ _ _ _ _ h => h) (fun _ _ _ _ _ _ h => h)
      (fun a ha w _ => h a ha w) fun _ _ => trivial
  exact each.mono fun as' _ _ _ same =>
    List.forall₂_eq_eq_eq ▸ same.flip

section Combined

variable (hk : n.connective? = some k) (hl : s.list? n.number = some l)
include hk hl

theorem still_members : (Work.still s).Ensures (members n) w fun ms _ => ms = l :=
  still_read (Store.members_eq_ok hk hl)

/-- The members of a node are joined to the node. -/
theorem still_combine (hs : s.Valid v) (hn : s.ValidNode v n) :
    (Work.still s).Ensures (combine k l) w fun n' _ => n' = n :=
  still_build (by rw [Build.combine, Store.combine_eq_self hs hn hk hl])

end Combined

/-! ## Passes that are known to the end -/

/-- From the lists of `s` a pass gives `a` and leaves those of `t`, unless the limit is hit. -/
def Becomes (x : Pass α) (s : Store) (a : α) (t : Store) : Prop :=
  ∀ limit used, (∃ used', x ⟨s, ⟨limit, used⟩⟩ = .ok a ⟨t, ⟨limit, used'⟩⟩) ∨
    ∃ o w, x ⟨s, ⟨limit, used⟩⟩ = .error (.overrun o) w

namespace Becomes

variable {β : Type} {x : Pass α} {f : α → Pass β} {a : α} {b : β} {t u : Store}

theorem pure (a : α) : Becomes (pure a) s a s := fun _ used => .inl ⟨used, rfl⟩

theorem bind (hx : Becomes x s a t) (hf : Becomes (f a) t b u) : Becomes (x >>= f) s b u := by
  intro limit used
  rcases hx limit used with ⟨used', first⟩ | ⟨o, w, late⟩
  · rw [bind_eq_of_ok first]
    exact hf limit used'
  · exact .inr ⟨o, w, bind_eq_of_error late⟩

theorem of_still (h : ∀ w, (Work.still s).Ensures x w fun a' _ => a' = a) : Becomes x s a s := by
  intro limit used
  cases eq : x ⟨s, ⟨limit, used⟩⟩ with
  | ok a' w =>
    obtain ⟨t, limit', used'⟩ := w
    obtain ⟨same, same', rfl⟩ := (h ⟨s, ⟨limit, used⟩⟩).of_ok rfl eq
    cases same
    cases same'
    exact .inl ⟨used', rfl⟩
  | error failure w =>
    obtain ⟨-, -, overrun⟩ := (h ⟨s, ⟨limit, used⟩⟩).of_error rfl eq
    cases failure with
    | fault fault => cases overrun
    | overrun o => exact .inr ⟨o, w, rfl⟩

theorem check : Becomes check s () s := .of_still fun _ => still_check.mono fun _ _ _ _ _ => rfl

theorem read {f : Store → Except Fault α} (h : f s = .ok a) : Becomes (read f) s a s :=
  .of_still fun _ => still_read h

theorem combine (h : s.combine k l = .ok (n, t)) : Becomes (combine k l) s n t :=
  fun limit used => .inl ⟨used, combine_of_eq_ok ⟨limit, used⟩ h⟩

end Becomes

end Pass

/-- Under a limit that is never hit, such a pass gives its answer. -/
theorem Forest.run_of_becomes {f : Forest} {α : Type} {x : Pass α} {a : α} {t : Store}
    {limit : Limit} (composed : x.Composed) (h : x.Becomes f.store a t)
    (never : ∀ used, (Budget.mk limit used).overrun? = none) :
    ∃ used, run x (f, .fresh limit) = .ok a ({ f with store := t }, ⟨limit, used⟩) := by
  rcases h limit 0 with ⟨used, eq⟩ | ⟨o, w, late⟩
  · exact ⟨used, run_eq_ok eq⟩
  · obtain ⟨out, g, used, -, inTime, -, limited⟩ := transparent_run composed f 0
    have run := (limited limit).1 fun k _ _ => never k
    rw [run_eq_error late] at run
    cases out with
    | ok a => cases run
    | error failure =>
      have same : Failure.overrun o = failure := (EStateM.Result.error.inj run).1
      exact (inTime o (same ▸ rfl)).elim

/-- A run that leaves the store as it is and fails only for lack of time has its answer, unless the
limit is hit. -/
theorem Forest.run_of_still {f : Forest} {budget : Budget} {α : Type} {x : Pass α} {a : α}
    (composed : x.Composed)
    (h : (Work.still f.store).Ensures x ⟨f.store, budget⟩ fun b _ => b = a) :
    (∃ used, run x (f, budget) = .ok a (f, ⟨budget.limit, used⟩)) ∨
      budget.limit ≠ .unlimited ∧
        ∃ o used, run x (f, budget) = .error (.overrun o) (f, ⟨budget.limit, used⟩) := by
  obtain ⟨limit, used⟩ := budget
  cases eq : x ⟨f.store, ⟨limit, used⟩⟩ with
  | ok b w =>
    obtain ⟨s, limit', used'⟩ := w
    obtain ⟨same, same', rfl⟩ := h.of_ok rfl eq
    obtain rfl : s = f.store := same
    obtain rfl : limit' = limit := same'
    exact .inl ⟨used', run_eq_ok eq⟩
  | error failure w =>
    obtain ⟨s, limit', used'⟩ := w
    obtain ⟨same, same', overrun⟩ := h.of_error rfl eq
    obtain rfl : s = f.store := same
    obtain rfl : limit' = limit := same'
    have stopped := run_eq_error (f := f) eq
    cases failure with
    | fault fault => cases overrun
    | overrun o =>
      refine .inr ⟨?_, o, used', stopped⟩
      rintro rfl
      exact ne_overrun_of_unlimited composed stopped o rfl

end Criteria
