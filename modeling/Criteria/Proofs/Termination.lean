import Criteria.Proofs.Repetition

/-!
# Loops that come to an end

A pass goes round in loops, and the definitions count the rounds and stop when none are left. That
this never happens is said without any count: `Descends less step n w out` says that, from `n` and
`w` on, doing `step` again and again as long as it gives another node comes to `out`, and that each
node that it gives is less than the one before. A loop comes to one end only (`Descends.unique`), so
all counts that are high enough come to the same.

What is nested in a loop is counted, too, so the steps themselves depend on a count. They may be
replaced by others that do the same wherever the loop comes by (`Descends.congr`).
-/

namespace Criteria

section Congruence

variable {σ ε α β : Type} {s : σ} {Q : α → σ → Prop}

theorem bind_congr_of_ok {x y : EStateM ε σ α} {f f' : α → EStateM ε σ β} (first : x s = y s)
    (second : ∀ a t, x s = .ok a t → f a t = f' a t) : (x >>= f) s = (y >>= f') s := by
  cases run : x s with
  | error e t => rw [bind_eq_of_error run, bind_eq_of_error (first.symm.trans run)]
  | ok a t => rw [bind_eq_of_ok run, bind_eq_of_ok (first.symm.trans run), second a t run]

theorem bind_congr_left {x y : EStateM ε σ α} {f : α → EStateM ε σ β} (h : x s = y s) :
    (x >>= f) s = (y >>= f) s :=
  bind_congr_of_ok h fun _ _ _ => rfl

/-- Two computations in a row do the same if the first ones do, and the second ones after what the
first ones ensure. -/
theorem Growth.Ensures.bind_congr {g : Growth ε σ} {x y : EStateM ε σ α}
    {f f' : α → EStateM ε σ β} (h : g.Ensures x s Q) (hs : g.valid s) (first : x s = y s)
    (second : ∀ a t, g.valid t → g.le s t → Q a t → f a t = f' a t) :
    (x >>= f) s = (y >>= f') s := by
  refine bind_congr_of_ok first fun a t run => ?_
  obtain ⟨ht, le, hQ⟩ := h.of_ok hs run
  exact second a t ht le hQ

/-- The same, where the first ones are known to repeat. -/
theorem Repetition.Repeats.bind_congr {g : Repetition σ} {x y z : EStateM ε σ α}
    {f f' : α → EStateM ε σ β} (h : g.Repeats x z s Q) (hs : g.valid s) (first : x s = y s)
    (second : ∀ a t, g.valid t → g.le s t → Q a t → f a t = f' a t) :
    (x >>= f) s = (y >>= f') s := by
  refine bind_congr_of_ok first fun a t run => ?_
  obtain ⟨ht, le, hQ, -⟩ := h hs a t run
  exact second a t ht le hQ

end Congruence

namespace Pass

variable {less less' : Store → Node → Store → Node → Prop} {step step' : Node → Pass (Option Node)}
  {n : Node} {w : Work} {out out' : EStateM.Result Failure Work Node}

/-- What a loop comes to that goes from each node to a lesser one until its step gives none. -/
inductive Descends (less : Store → Node → Store → Node → Prop) (step : Node → Pass (Option Node)) :
    Node → Work → EStateM.Result Failure Work Node → Prop
  | fails {n : Node} {w w' : Work} {failure : Failure} :
      step n w = .error failure w' → Descends less step n w (.error failure w')
  | done {n : Node} {w w' : Work} : step n w = .ok none w' → Descends less step n w (.ok n w')
  | next {n n' : Node} {w w' : Work} {out : EStateM.Result Failure Work Node} :
      step n w = .ok (some n') w' → less w.store n w'.store n' → Descends less step n' w' out →
      Descends less step n w out

namespace Descends

/-- A loop comes to one end only. -/
theorem unique (h : Descends less step n w out) (h' : Descends less' step n w out') :
    out = out' := by
  induction h with
  | fails failed =>
    cases h' with
    | fails failed' =>
      cases failed.symm.trans failed'
      rfl
    | done done' => cases failed.symm.trans done'
    | next next' => cases failed.symm.trans next'
  | done done =>
    cases h' with
    | fails failed' => cases done.symm.trans failed'
    | done done' =>
      cases done.symm.trans done'
      rfl
    | next next' => cases done.symm.trans next'
  | next next _ _ ih =>
    cases h' with
    | fails failed' => cases next.symm.trans failed'
    | done done' => cases next.symm.trans done'
    | next next' _ rest =>
      cases next.symm.trans next'
      exact ih rest

/-- Steps that do the same wherever the loop comes by are as good. -/
theorem congr (h : Descends less step n w out) {P : Node → Work → Prop} (here : P n w)
    (same : ∀ {n w}, P n w → step n w = step' n w)
    (keeps : ∀ {n w n' w'}, P n w → step n w = .ok (some n') w' → P n' w') :
    Descends less step' n w out := by
  induction h with
  | fails failed => exact .fails ((same here).symm.trans failed)
  | done done => exact .done ((same here).symm.trans done)
  | next next lesser _ ih =>
    exact .next ((same here).symm.trans next) lesser (ih (keeps here next))

/-- A loop that counts its rounds goes down to its end if it has a round for each unit of a measure
that gets smaller; at zero there has to be nothing left to do. -/
theorem of_rounds (loop : Nat → Node → Pass Node) (measure : Store → Node → Nat) {rounds : Nat}
    (zero : ∀ n, loop 0 n = pure n)
    (succ : ∀ rounds n, loop (rounds + 1) n = (do
      match ← step n with
      | none => return n
      | some n' => loop rounds n'))
    {P : Node → Work → Prop} (here : P n w)
    (down : ∀ {n w n' w'}, P n w → step n w = .ok (some n') w' →
      P n' w' ∧ less w.store n w'.store n' ∧ measure w'.store n' < measure w.store n)
    (bottom : ∀ {n w}, P n w → measure w.store n = 0 → step n = pure none)
    (few : measure w.store n ≤ rounds) : Descends less step n w (loop rounds n w) := by
  induction rounds generalizing n w with
  | zero =>
    rw [zero]
    exact .done (by rw [bottom here (Nat.le_zero.1 few)]; rfl)
  | succ rounds ih =>
    rw [succ]
    cases run : step n w with
    | error failure w' =>
      rw [bind_eq_of_error run]
      exact .fails run
    | ok out w' =>
      rw [bind_eq_of_ok run]
      cases out with
      | none => exact .done run
      | some n' =>
        obtain ⟨there, lesser, smaller⟩ := down here run
        exact .next run lesser (ih there (by omega))

end Descends

end Pass

end Criteria
