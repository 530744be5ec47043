import Criteria.Simplify
import Criteria.Proofs.Consolidation

/-!
# How passes are put together

All that a pass does is to check its budget and to build (`Pass.Composed`), one after the other, and
all that building does is to add lists (`Build.Adds`), whatever it is given and however it ends. So
what holds of a check and of building, and of two computations in a row if it holds of both, holds
of every pass: an induction over `Pass.Composed` proves it for all passes at once.
-/

namespace Criteria

/-! ## Building -/

namespace Store

variable {s t : Store} {k : Connective} {n : Node} {l : List Node}

/-- Stores with a property grow by lists, and building may fail in any way. -/
def within (I : Store → Prop) : Growth Fault Store where
  valid := I
  le := Extends
  fails _ _ := True
  refl := .refl
  trans := .trans

/-- Stores grow by any lists, and building may fail in any way. -/
abbrev additions : Growth Fault Store := within fun _ => True

theorem extends_combine (h : s.combine k l = .ok (n, t)) : s.Extends t := by
  rcases register_of_combine h with rfl | ⟨ms, id, -, registered, -⟩
  · exact .refl t
  · exact (extends_register registered).1

end Store

namespace Build

variable {α β : Type} {n : Node} {k : Connective} {l : List Node}

/-- A computation that leaves the lists that are there. -/
def Adds (x : Build α) : Prop := ∀ s, Store.additions.Ensures x s fun _ _ => True

namespace Adds

theorem pure (a : α) : Adds (pure a) := fun _ => .pure fun _ => trivial

theorem throw (fault : Fault) : Adds (throw fault : Build α) := fun _ => .throw fun _ => trivial

theorem bind {x : Build α} {f : α → Build β} (hx : x.Adds) (hf : ∀ a, (f a).Adds) :
    Adds (x >>= f) := fun s => (hx s).bind fun a t _ _ _ => hf a t

theorem mapM {f : α → Build β} (hf : ∀ a, (f a).Adds) (as : List α) : Adds (as.mapM f) := by
  induction as with
  | nil =>
    rw [List.mapM_nil]
    exact .pure []
  | cons a as ih =>
    rw [List.mapM_cons]
    exact (hf a).bind fun b => ih.bind fun bs => .pure (b :: bs)

end Adds

theorem adds_read (f : Store → Except Fault α) : Adds (read f) := by
  intro s hs
  rw [read]
  cases f s with
  | ok a => exact ⟨hs, .refl s, trivial⟩
  | error fault => exact ⟨hs, .refl s, trivial⟩

/-- Joining nodes adds at most a list. -/
theorem ensures_combine_eq {s : Store} {k : Connective} {l : List Node} :
    Store.additions.Ensures (combine k l) s fun n t => s.combine k l = .ok (n, t) := by
  intro hs
  unfold combine
  cases eq : s.combine k l with
  | ok result => exact ⟨hs, Store.extends_combine eq, rfl⟩
  | error fault => exact ⟨hs, .refl s, trivial⟩

theorem adds_combine (k : Connective) (l : List Node) : Adds (combine k l) := fun _ =>
  ensures_combine_eq.mono fun _ _ _ _ _ => trivial

theorem adds_complementOfLeaf (n : Node) : Adds (complementOfLeaf n) := by
  refine (adds_read _).bind fun negation => (adds_read _).bind fun argument => ?_
  split
  · exact (adds_read _).bind fun reference => adds_combine _ _
  · exact adds_combine _ _

theorem adds_complementWithin (fuel : Nat) (n : Node) : Adds (complementWithin fuel n) := by
  induction fuel generalizing n with
  | zero => exact .throw _
  | succ fuel ih =>
    rw [complementWithin]
    split
    · exact adds_read _
    split
    · exact (adds_read _).bind fun ms => (Adds.mapM ih ms).bind fun ms' => adds_combine _ _
    · exact adds_complementOfLeaf n

theorem adds_knownCheck (n : Node) : Adds (knownCheck n) := by
  refine (adds_read _).bind fun known => ?_
  split
  · exact (adds_read _).bind fun known' => adds_combine _ _
  · exact .pure known

end Build

/-! ## Passes -/

namespace Pass

variable {α β : Type}

/-- A pass that is put together of checks and of building. -/
inductive Composed : {α : Type} → Pass α → Prop
  | pure {α : Type} (a : α) : Composed (pure a)
  | check : Composed Pass.check
  | build {α : Type} {x : Build α} : x.Adds → Composed (build x)
  | bind {α β : Type} {x : Pass α} {f : α → Pass β} :
      Composed x → (∀ a, Composed (f a)) → Composed (x >>= f)

namespace Composed

theorem map {x : Pass α} (f : α → β) (hx : Composed x) : Composed (f <$> x) := by
  rw [map_eq_pure_bind]
  exact hx.bind fun a => .pure (f a)

theorem mapM {f : α → Pass β} (hf : ∀ a, Composed (f a)) (as : List α) : Composed (as.mapM f) := by
  induction as with
  | nil =>
    rw [List.mapM_nil]
    exact .pure []
  | cons a as ih =>
    rw [List.mapM_cons]
    exact (hf a).bind fun b => ih.bind fun bs => .pure (b :: bs)

/-- A pass may look at the store before it goes on. -/
theorem look {f : Store → Pass α} (hf : ∀ s, Composed (f s)) :
    Composed fun w => f w.store w :=
  (Composed.build (Build.adds_read .ok)).bind hf

end Composed

theorem composed_read (f : Store → Except Fault α) : Composed (read f) :=
  .build (Build.adds_read f)

theorem composed_members (n : Node) : Composed (members n) := .build (Build.adds_read _)

theorem composed_combine (k : Connective) (l : List Node) : Composed (combine k l) :=
  .build (Build.adds_combine k l)

/-! ## Pruning -/

theorem composed_premise (k : Connective) (m : Node) : Composed (premise k m) := by
  cases k with
  | and => exact .pure _
  | or =>
    unfold premise
    simp only
    split
    · exact .pure none
    · exact .map _ (.build (Build.adds_complementWithin _ m))

section Prune

variable {prune : Node → List Node → Pass Node} (hprune : ∀ n l, Composed (prune n l))
include hprune

theorem composed_pruneFrom (k : Connective) (known : List Node) (m : Node)
    (pending : List Pending) : Composed (pruneFrom prune k known m pending) := by
  induction pending generalizing known m with
  | nil =>
    rw [pruneFrom]
    exact (hprune m known).bind fun m' => .pure _
  | cons next rest ih =>
    rw [pruneFrom]
    refine (hprune _ _).bind fun m' => ?_
    split
    · exact .pure none
    · exact .bind .check fun _ => (composed_premise k m').bind fun p =>
        .map _ (ih _ next.member)

theorem composed_pruneMembers (k : Connective) (assumptions ms : List Node) :
    Composed (pruneMembers prune k assumptions ms) := by
  cases ms with
  | nil => exact .pure (some [])
  | cons m rest =>
    have pend (n : Node) : Composed (do return (⟨n, ← premise k n⟩ : Pending)) :=
      (composed_premise k n).bind fun p => .pure _
    exact .bind .check fun _ => (Composed.mapM pend rest).bind fun pending =>
      composed_pruneFrom hprune k assumptions m pending

end Prune

theorem composed_findPartner (k : Connective) (l : Node) (before between after : List Node) :
    Composed (findPartner k l before between after) := by
  induction after generalizing between with
  | nil => exact .pure none
  | cons r after ih =>
    rw [findPartner]
    refine .bind .check fun _ => (composed_read _).bind fun advice => ?_
    split
    · exact ih _
    · exact .pure _

theorem composed_findPair (k : Connective) (before ms : List Node) :
    Composed (findPair k before ms) := by
  induction ms generalizing before with
  | nil => exact .pure none
  | cons l rest ih =>
    rw [findPair]
    refine (composed_findPartner k l before [] rest).bind fun out => ?_
    cases out with
    | none => exact ih _
    | some finding => exact .pure (some finding)

theorem composed_kept (f : Finding) : Composed f.kept := by
  unfold Finding.kept
  cases f.advice with
  | replaceByKnown => exact .bind (.build (Build.adds_knownCheck _)) fun n => .pure [n]
  | _ => exact .pure _

theorem composed_applyAdvice (k : Connective) (rounds : Nat) (n : Node) :
    Composed (applyAdvice k rounds n) := by
  induction rounds generalizing n with
  | zero => exact .pure n
  | succ rounds ih =>
    rw [applyAdvice]
    split
    · exact .pure n
    refine (composed_members n).bind fun ms => (composed_findPair k [] ms).bind fun out => ?_
    cases out with
    | none => exact .pure n
    | some f =>
      simp only
      split
      · exact .pure _
      · exact .pure _
      · exact (composed_kept f).bind fun kept => (composed_combine _ _).bind ih

theorem composed_rejoin (k : Connective) (rounds : Nat) (out : Option (List Node)) :
    Composed (rejoin k rounds out) := by
  cases out with
  | none => exact .pure _
  | some ms => exact (composed_combine k ms).bind (composed_applyAdvice k rounds)

theorem composed_pruneOnce {prune : Node → List Node → Pass Node}
    (hprune : ∀ n l, Composed (prune n l)) (rounds : Nat) (assumptions : List Node)
    (k : Connective) (n : Node) : Composed (pruneOnce prune rounds assumptions k n) := by
  refine (composed_members n).bind fun ms => ?_
  cases k with
  | and => exact (composed_pruneMembers hprune _ _ ms).bind (composed_rejoin _ _)
  | or =>
    refine (composed_read _).bind fun out => ?_
    cases out with
    | none => exact .pure _
    | some ms => exact (composed_pruneMembers hprune _ _ ms).bind (composed_rejoin _ _)

theorem composed_repeatStep {step : Connective → Node → Pass Node}
    (hstep : ∀ k n, Composed (step k n)) (seen : List Node) (rounds : Nat) (n : Node) :
    Composed (repeatStep step seen rounds n) := by
  induction rounds generalizing seen n with
  | zero => exact .pure n
  | succ rounds ih =>
    rw [repeatStep]
    split
    · exact .pure n
    refine .bind .check fun _ => (hstep _ n).bind fun n' => ?_
    split
    · exact .pure n'
    · exact ih _ n'

theorem composed_settle (n : Node) (assumptions : List Node) : Composed (settle n assumptions) :=
  (composed_read _).bind fun _ => .pure _

theorem composed_pruneWithin (fuel : Nat) (n : Node) (assumptions : List Node) :
    Composed (pruneWithin fuel n assumptions) := by
  induction fuel generalizing n assumptions with
  | zero => exact .pure n
  | succ fuel ih =>
    rw [pruneWithin]
    refine .bind .check fun _ => ?_
    split
    · exact .pure n
    refine (composed_settle n assumptions).bind fun out => ?_
    split
    · exact .pure _
    refine (composed_repeatStep (composed_pruneOnce ih _ _) _ _ n).bind fun n' => ?_
    split
    · exact .pure n'
    refine (composed_settle n' assumptions).bind fun out => ?_
    split
    · exact .pure _
    · exact .pure n'

theorem composed_pruneUnder (n : Node) (assumptions : List Node) :
    Composed (pruneUnder n assumptions) :=
  .look fun s => composed_pruneWithin (s.effort n) n assumptions

theorem composed_prune (n : Node) : Composed (prune n) := composed_pruneUnder n []

/-! ## Distributing -/

theorem composed_product (term factor : Node) : Composed (product term factor) := by
  unfold product
  split
  · exact .pure _
  split
  · exact .pure _
  refine (composed_read _).bind fun forth => ?_
  split
  · exact .pure _
  refine (composed_read _).bind fun back => ?_
  split
  · exact .pure _
  refine (composed_read _).bind fun never => ?_
  split
  · exact .pure _
  · exact (composed_combine _ _).bind fun n => .pure _

theorem composed_productsOf (term : Node) (factors : List Node) :
    Composed (productsOf term factors) := by
  induction factors with
  | nil => exact .pure []
  | cons factor rest ih =>
    exact .bind .check fun _ => (composed_product term factor).bind fun n =>
      ih.bind fun ns => .pure _

theorem composed_products (factors terms : List Node) : Composed (products factors terms) := by
  induction terms with
  | nil => exact .pure []
  | cons term rest ih =>
    exact (composed_productsOf term factors).bind fun ns => ih.bind fun ns' => .pure _

theorem composed_cleanUp (terms : List Node) : Composed (cleanUp terms) := by
  refine (composed_combine _ _).bind fun n => (composed_prune n).bind fun n' => ?_
  split
  · exact composed_members n'
  · exact .pure _

theorem composed_multiplyOut (cleanup : Nat) (terms ors : List Node) :
    Composed (multiplyOut cleanup terms ors) := by
  induction ors generalizing terms with
  | nil => exact .pure terms
  | cons n rest ih =>
    rw [multiplyOut]
    refine (composed_members n).bind fun ms => (composed_products ms terms).bind fun out => ?_
    have go (next : List Node) : Composed
        (if next.isEmpty then pure next else multiplyOut cleanup next rest) := by
      split
      · exact .pure next
      · exact ih next
    simp only
    split
    · exact (composed_cleanUp _).bind go
    · exact go _

theorem composed_distributeAnd (cleanup : Nat) (ms : List Node) :
    Composed (distributeAnd cleanup ms) := by
  unfold distributeAnd
  refine (composed_combine _ _).bind fun base => ?_
  split
  · exact .pure base
  · exact (composed_multiplyOut cleanup _ _).bind (composed_combine _)

theorem composed_distributeWithin (cleanup fuel : Nat) (n : Node) :
    Composed (distributeWithin cleanup fuel n) := by
  induction fuel generalizing n with
  | zero => exact .pure n
  | succ fuel ih =>
    rw [distributeWithin]
    refine .bind .check fun _ => ?_
    split
    · exact .pure n
    next k _ =>
    refine (composed_members n).bind fun ms => (Composed.mapM ih ms).bind fun ms' => ?_
    cases k with
    | and => exact composed_distributeAnd cleanup ms'
    | or => exact composed_combine _ ms'

theorem composed_distribute (cleanup : Nat) (n : Node) : Composed (distribute cleanup n) :=
  .look fun s => composed_distributeWithin cleanup (s.effort n) n

/-! ## Factoring -/

theorem composed_overlapsWith (l : List Node) (ls : List (List Node)) :
    Composed (overlapsWith l ls) := by
  induction ls with
  | nil => exact .pure []
  | cons other rest ih => exact .bind .check fun _ => ih.bind fun found => .pure _

theorem composed_overlaps (ls : List (List Node)) : Composed (overlaps ls) := by
  induction ls with
  | nil => exact .pure []
  | cons l rest ih =>
    exact (composed_overlapsWith l rest).bind fun found => ih.bind fun found' => .pure _

theorem composed_bestOf (found : List (List Node)) (best : Option Candidate)
    (ls : List (List Node)) : Composed (bestOf found best ls) := by
  induction ls generalizing best with
  | nil => exact .pure best
  | cons l rest ih => exact .bind .check fun _ => ih _

theorem composed_bestOverlap (ms : List Node) : Composed (bestOverlap ms) :=
  (composed_read _).bind fun lists => (composed_overlaps lists).bind fun found =>
    .map _ (composed_bestOf found none _)

theorem composed_takeOut (overlap ms : List Node) : Composed (takeOut overlap ms) := by
  induction ms with
  | nil => exact .pure _
  | cons m rest ih =>
    have keep : Composed (do
        let r ← takeOut overlap rest
        return { r with others := m :: r.others }) := ih.bind fun r => .pure _
    rw [takeOut]
    split
    · refine (composed_members m).bind fun l => ?_
      split
      · exact (composed_combine _ _).bind fun n => ih.bind fun r => .pure _
      · exact keep
    · exact keep

theorem composed_factorOut {factor : Node → Pass Node} (hf : ∀ n, Composed (factor n))
    (ms overlap : List Node) : Composed (factorOut factor ms overlap) :=
  (composed_takeOut overlap ms).bind fun _ => (composed_combine _ _).bind fun inner =>
    (hf inner).bind fun _ => (composed_combine _ _).bind fun _ => composed_combine _ _

theorem composed_factorAll {factor : Node → Pass Node} (hf : ∀ n, Composed (factor n))
    (rounds : Nat) (n : Node) : Composed (factorAll factor rounds n) := by
  induction rounds generalizing n with
  | zero => exact .pure n
  | succ rounds ih =>
    rw [factorAll]
    split
    · exact .pure n
    refine .bind .check fun _ => (composed_members n).bind fun ms =>
      (composed_bestOverlap ms).bind fun out => ?_
    cases out with
    | none => exact .pure n
    | some overlap => exact (composed_factorOut hf ms overlap).bind ih

theorem composed_factorWithin (fuel : Nat) (n : Node) : Composed (factorWithin fuel n) := by
  induction fuel generalizing n with
  | zero => exact .pure n
  | succ fuel ih =>
    rw [factorWithin]
    refine .bind .check fun _ => ?_
    split
    · exact .pure n
    next k _ =>
    refine (composed_members n).bind fun ms => (Composed.mapM ih ms).bind fun ms' =>
      (composed_combine k ms').bind fun n' => ?_
    cases k with
    | and => exact .pure n'
    | or => exact (composed_factorAll ih fuel n').bind composed_prune

theorem composed_factor (n : Node) : Composed (factor n) :=
  .look fun s => composed_factorWithin (s.effort n) n

/-! ## Simplifying -/

theorem composed_simplify (cleanup : Nat) (n : Node) : Composed (simplify cleanup n) :=
  (composed_prune n).bind fun n => (composed_distribute cleanup n).bind composed_factor

end Pass

end Criteria
