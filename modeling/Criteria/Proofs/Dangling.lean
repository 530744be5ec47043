import Criteria.Proofs.Provenance
import Criteria.Proofs.Reachability

/-!
# Nodes whose lists are not there

A combined node *dangles* where its list was never issued or is reclaimed.

**Theorem (`Store.exists_combine_eq_error`).** If some members that have the connective dangle,
joining fails with the fault of looking up one of these.

**Theorem (`Pass.keepsGround_simplify`).** No pass makes a node that dangles a member, whatever node
it is given.

Joining looks up the members that have its connective, to lift theirs. Members with the other
connective are taken as they are, so one that dangles becomes a member of the list that is
registered (`Store.ensures_grounded_combine`). Nothing else that builds can bring one in. The
invariant is that all members that dangle are on some list of *strays* (`Store.Grounded`): not to
dangle, or to be a stray, is hereditary under it (`Store.hereditary_backed`), so passes make of such
nodes such nodes. Any other node is not taken apart, because its members are looked up first.
-/

namespace Criteria

/-! ## Nodes that do not dangle -/

/-- No negation is combined. -/
theorem Node.not_isCombined_of_negate {n m : Node} (h : n.negate = .ok m) :
    m.isCombined = false := by
  unfold negate at h
  split at h
  · cases h
  next valid =>
  split at h
  · cases h
  next low =>
  cases h
  rw [isCombined_iff] at low
  rw [isInvalid_iff] at valid
  rw [Bool.eq_false_iff, ne_eq, isCombined_iff, toNat_flip]
  split <;> omega

theorem Node.isLeaf_of_unknownOfArgument {n m : Node} (h : n.unknownOfArgument = .ok m) :
    m.isLeaf = true := by
  obtain ⟨rfl, lt⟩ := unknownOfArgument_lt h
  exact isLeaf_unknownOf (lt.trans (by decide))

theorem Node.isLeaf_of_unknownOfReference {n m : Node} (h : n.unknownOfReference = .ok m) :
    m.isLeaf = true := by
  obtain ⟨op, -, eq⟩ := bind_eq_ok_iff.1 h
  split at eq
  · cases eq
  · cases eq
    exact isLeaf_unknownOf (Nat.mod_lt _ (by decide))

namespace Store

variable {s t : Store} {strays : List Node} {k : Connective} {n m : Node} {l : List Node}

/-! ## Dangling nodes -/

/-- Whether the list of a combined node is not there. -/
def dangles (s : Store) (n : Node) : Bool := n.isCombined && (s.list? n.number).isNone

/-- The fault of looking up a list that is not there. -/
def absence (s : Store) (n : Node) : Fault :=
  if s.size ≤ n.number then .neverIssued n.number else .reclaimed n.number

theorem dangles_iff :
    s.dangles n = true ↔ n.isCombined = true ∧ s.list? n.number = none := by
  rw [dangles, Bool.and_eq_true, Option.isNone_iff_eq_none]

theorem not_dangles_of_list? (h : s.list? n.number = some l) : s.dangles n = false := by
  rw [dangles, h]
  exact Bool.and_false _

theorem not_dangles_of_not_isCombined (h : n.isCombined = false) : s.dangles n = false := by
  rw [dangles, h]
  rfl

/-- A node that dangles after lists were added did so before. -/
theorem dangles_of_extends (le : s.Extends t) (h : t.dangles n = true) : s.dangles n = true := by
  obtain ⟨comb, gone⟩ := dangles_iff.1 h
  cases hl : s.list? n.number with
  | none => exact dangles_iff.2 ⟨comb, hl⟩
  | some l => cases gone.symm.trans (le.list? hl)

theorem members_of_dangles (h : s.dangles n = true) : s.members n = .error (s.absence n) := by
  obtain ⟨comb, gone⟩ := dangles_iff.1 h
  rw [members_of_isCombined comb, absence]
  split
  · next never => exact Raw.lookup_eq_neverIssued_iff.2 never
  · next issued => exact Raw.lookup_eq_reclaimed (Nat.lt_of_not_le issued) gone

/-! ## Joining -/

theorem exists_flatten_eq_error (hm : m ∈ l) (hk : m.connective? = some k)
    (h : s.dangles m = true) :
    ∃ m ∈ l, m.connective? = some k ∧ s.dangles m = true ∧
      s.flatten k l = .error (s.absence m) := by
  induction l with
  | nil => cases hm
  | cons a l ih =>
    by_cases first : a.connective? = some k ∧ s.dangles a = true
    · refine ⟨a, List.mem_cons_self, first.1, first.2, ?_⟩
      rw [flatten_cons, if_pos first.1, members_of_dangles first.2]
      rfl
    -- The members of `a` are lifted, so it is one of the others that fails.
    have front : ∃ front,
        (if a.connective? = some k then s.members a else .ok [a]) = .ok front := by
      by_cases hk : a.connective? = some k
      · rw [if_pos hk]
        cases hl : s.list? a.number with
        | some l => exact ⟨l, members_eq_ok hk hl⟩
        | none => exact (first ⟨hk, dangles_iff.2 ⟨Node.isCombined_of_connective? hk, hl⟩⟩).elim
      · exact ⟨[a], if_neg hk⟩
    obtain ⟨front, lifted⟩ := front
    have later : m ∈ l := by
      rcases List.mem_cons.1 hm with rfl | later
      · exact (first ⟨hk, h⟩).elim
      · exact later
    obtain ⟨m', hm', hk', dangles, eq⟩ := ih later
    refine ⟨m', List.mem_cons_of_mem a hm', hk', dangles, ?_⟩
    rw [flatten_cons, lifted, eq]
    rfl

/-- **Joining fails where a member with the connective dangles.** -/
theorem exists_combine_eq_error (valid : .invalid ∉ l) (hm : m ∈ l) (hk : m.connective? = some k)
    (h : s.dangles m = true) :
    ∃ m ∈ l, m.connective? = some k ∧ s.dangles m = true ∧
      s.combine k l = .error (s.absence m) := by
  obtain ⟨m', hm', hk', dangles, eq⟩ := exists_flatten_eq_error hm hk h
  refine ⟨m', hm', hk', dangles, ?_⟩
  rw [combine, if_neg (by simpa using valid), eq]
  rfl

/-- What is joined has no member with the connective that dangles. -/
theorem not_dangles_of_combine (eq : s.combine k l = .ok (n, t)) (hm : m ∈ l)
    (hk : m.connective? = some k) : s.dangles m = false := by
  by_cases invalid : l.contains .invalid = true
  · rw [combine, if_pos invalid] at eq
    cases eq
  rw [Bool.eq_false_iff]
  intro h
  obtain ⟨m', -, -, -, fails⟩ := exists_combine_eq_error (by simpa using invalid) hm hk h
  cases eq.symm.trans fails

/-! ## Members that dangle -/

/-- A node that does not dangle unless it is on a list. -/
def Backed (strays : List Node) (s : Store) (n : Node) : Prop := s.dangles n = true → n ∈ strays

/-- All members do not dangle unless they are on a list. -/
def Grounded (strays : List Node) (s : Store) : Prop :=
  ∀ id l, s.list? id = some l → ∀ m ∈ l, s.Backed strays m

namespace Backed

theorem of_not_dangles (h : s.dangles n = false) : s.Backed strays n := by
  intro dangles
  rw [h] at dangles
  cases dangles

theorem of_not_isCombined (h : n.isCombined = false) : s.Backed strays n :=
  .of_not_dangles (not_dangles_of_not_isCombined h)

theorem of_isLeaf (h : n.isLeaf = true) : s.Backed strays n :=
  .of_not_isCombined (Node.not_isCombined_of_isLeaf h)

theorem of_list? (h : s.list? n.number = some l) : s.Backed strays n :=
  .of_not_dangles (not_dangles_of_list? h)

theorem mono (le : s.Extends t) (h : s.Backed strays n) : t.Backed strays n := fun dangles =>
  h (dangles_of_extends le dangles)

end Backed

theorem grounded_empty (threshold : Nat) : (empty threshold).Grounded strays := by
  intro id l hl
  simp at hl

theorem Grounded.of_subset {strays' : List Node} (hs : s.Grounded strays)
    (sub : strays ⊆ strays') : s.Grounded strays' := fun id l hl m hm dangles =>
  sub (hs id l hl m hm dangles)

theorem Grounded.register {id : Nat} (hs : s.Grounded strays) (h : ∀ m ∈ l, s.Backed strays m)
    (registered : s.register l = .ok (id, t)) : t.Grounded strays := by
  intro id' l' hl' m hm
  have le := (extends_register registered).1
  rcases list?_register_cases registered hl' with rfl | hl'
  · exact (h m hm).mono le
  · exact (hs id' l' hl' m hm).mono le

/-- What can be reached is kept, so no member that is kept loses its list. -/
theorem Grounded.sweep {roots : List Node} (hs : s.Grounded strays) :
    (s.sweep roots).2.Grounded strays := by
  intro id l hl m hm dangles
  obtain ⟨kept, hl⟩ := list?_of_sweep hl
  obtain ⟨comb, gone⟩ := dangles_iff.1 dangles
  refine hs id l hl m hm (dangles_iff.2 ⟨comb, ?_⟩)
  rwa [list?_sweep, if_pos (Raw.member_mem_reachable kept hl hm comb)] at gone

theorem compositional_backed (strays : List Node) :
    Compositional (Grounded strays) (Backed strays) where
  mono := .mono
  constant h := .of_not_isCombined (Node.not_isCombined_of_isConstant h)
  members hs _ eq := hs _ _ (list?_of_members eq).2
  combined _ hl _ := .of_list? hl
  register := .register

/-! ## Building -/

/-- Only members with the other connective that dangle have to be on the list. -/
theorem ensures_grounded_combine
    (h : ∀ m ∈ l, m.connective? ≠ some k → s.Backed strays m) :
    (within (Grounded strays)).Ensures (Build.combine k l) s fun _ _ => True := by
  intro hs
  unfold Build.combine
  cases eq : s.combine k l with
  | error fault => exact ⟨hs, .refl s, trivial⟩
  | ok result =>
    have backed : ∀ m ∈ l, s.Backed strays m := by
      intro m hm
      by_cases hk : m.connective? = some k
      · exact .of_not_dangles (not_dangles_of_combine eq hm hk)
      · exact h m hm hk
    exact ⟨((compositional_backed strays).combine hs backed eq).1, extends_combine eq, trivial⟩

theorem ensures_backed_complementOfLeaf :
    (within (Grounded strays)).Ensures (Build.complementOfLeaf n) s fun n' t =>
      t.Backed strays n' := by
  have joins := compositional_backed strays
  refine (ensures_read_eq _).bind fun negation _ _ _ hnegation => ?_
  refine (ensures_read_eq _).bind fun argument _ _ _ hargument => ?_
  have hnegation : ∀ t, Backed strays t negation := fun _ =>
    .of_not_isCombined (Node.not_isCombined_of_negate hnegation)
  have hargument : ∀ t, Backed strays t argument := fun _ =>
    .of_isLeaf (Node.isLeaf_of_unknownOfArgument hargument)
  split
  · refine (ensures_read_eq _).bind fun reference t _ _ hreference => ?_
    have hreference : t.Backed strays reference :=
      .of_isLeaf (Node.isLeaf_of_unknownOfReference hreference)
    exact joins.ensures_combine (List.forall_mem_cons.2 ⟨hnegation _,
      List.forall_mem_cons.2 ⟨hargument _, List.forall_mem_singleton.2 hreference⟩⟩)
  · exact joins.ensures_combine
      (List.forall_mem_cons.2 ⟨hnegation _, List.forall_mem_singleton.2 (hargument _)⟩)

/-- The complement of any node, even of one that dangles, has its list. -/
theorem ensures_backed_complementWithin (fuel : Nat) :
    (within (Grounded strays)).Ensures (Build.complementWithin fuel n) s fun n' t =>
      t.Backed strays n' := by
  induction fuel generalizing n s with
  | zero => exact .throw fun _ => trivial
  | succ fuel ih =>
    rw [Build.complementWithin]
    split
    · exact (ensures_read_eq _).mono fun _ _ _ _ eq =>
        .of_not_isCombined (Node.not_isCombined_of_negate eq)
    split
    · refine (ensures_read_eq _).bind fun ms t _ _ _ => ?_
      have each : (within (Grounded strays)).Ensures (ms.mapM (Build.complementWithin fuel)) t
          fun ms' t => ∀ m' ∈ ms', t.Backed strays m' :=
        .forall_mapM (fun _ _ _ _ le h => h.mono le) fun _ _ _ => ih
      exact each.bind fun ms' u _ _ backed =>
        (compositional_backed strays).ensures_combine backed
    · exact ensures_backed_complementOfLeaf

/-- To have its list, or to be one of some nodes, is hereditary. -/
theorem hereditary_backed (strays : List Node) :
    Hereditary (Grounded strays) (Backed strays) where
  toCompositional := compositional_backed strays
  argument _ eq := .of_isLeaf (isLeaf_of_knownArgument eq)
  reference _ eq := .of_isLeaf (isLeaf_of_knownReference eq)
  complement _ := (ensures_backed_complementWithin _).mono fun _ _ _ _ _ => trivial

/-- The check that the arguments of any node are known, even of one that dangles, has its list. -/
theorem ensures_backed_knownCheck :
    (within (Grounded strays)).Ensures (Build.knownCheck n) s fun n' t => t.Backed strays n' := by
  cases comb : n.isCombined with
  | false => exact (hereditary_backed strays).ensures_knownCheck (.of_not_isCombined comb)
  | true =>
    refine (ensures_read_eq _).bind fun known _ _ _ eq => ?_
    cases (Node.isLeaf_of_isCombined comb).symm.trans (Node.isLeaf_of_argument eq)

end Store

/-! ## Passes -/

namespace Pass

open Store (Grounded Backed)

variable {s : Store} {w : Work} {k : Connective} {n : Node} {strays assumptions : List Node}
  {α : Type}

/-! ### Nodes that dangle -/

section Dangling

variable (h : s.dangles n = true)
include h

theorem ensures_members_of_dangles :
    (Work.within (· = s)).Ensures (members n) w fun _ _ => False := by
  obtain ⟨t, budget⟩ := w
  rintro rfl
  have fails : members n ⟨t, budget⟩ = .error (.fault (t.absence n)) ⟨t, budget⟩ := by
    simp only [members, build, Build.members, Build.read, Store.members_of_dangles h]
  rw [fails]
  exact ⟨rfl, .refl t, fun _ _ => trivial⟩

theorem ensures_pruneOnce_of_dangles {p : Node → List Node → Pass Node} {rounds : Nat} :
    (Work.within (· = s)).Ensures (pruneOnce p rounds assumptions k n) w fun _ _ => False :=
  (ensures_members_of_dangles h).bind fun _ _ _ _ no => no.elim

theorem ensures_pruneWithin_of_dangles (fuel : Nat) :
    (Work.within (· = s)).Ensures (pruneWithin fuel n assumptions) w fun _ _ => True := by
  cases fuel with
  | zero => exact .pure fun _ => trivial
  | succ fuel =>
    -- No round is finished, so the node that was given is the only combined one that can be left.
    have pruned : (Work.within (· = s)).Ensures (pruneWithin (fuel + 1) n assumptions) w
        fun n' _ => n'.isCombined = true → n' = n := by
      refine ensures_pruneWithin_of_step (P := fun _ n' => n'.isCombined = true → n' = n)
        (fun _ same => same) (fun {_ n'} constant comb => ?_) (fun {w k n'} same hk => ?_)
        fun _ => rfl
      · cases (Node.not_isCombined_of_isConstant constant).symm.trans comb
      · rw [same (Node.isCombined_of_connective? hk)]
        exact (ensures_pruneOnce_of_dangles h).mono fun _ _ _ _ no => no.elim
    exact pruned.mono fun _ _ _ _ _ => trivial

theorem ensures_distributeWithin_of_dangles (cleanup fuel : Nat) :
    (Work.within (· = s)).Ensures (distributeWithin cleanup fuel n) w fun _ _ => True := by
  cases fuel with
  | zero => exact .pure fun _ => trivial
  | succ fuel =>
    rw [distributeWithin]
    refine ensures_check.bind fun _ w₁ _ _ _ => ?_
    split
    · exact .pure fun _ => trivial
    · exact (ensures_members_of_dangles h).bind fun _ _ _ _ no => no.elim

theorem ensures_factorWithin_of_dangles (fuel : Nat) :
    (Work.within (· = s)).Ensures (factorWithin fuel n) w fun _ _ => True := by
  cases fuel with
  | zero => exact .pure fun _ => trivial
  | succ fuel =>
    rw [factorWithin]
    refine ensures_check.bind fun _ w₁ _ _ _ => ?_
    split
    · exact .pure fun _ => trivial
    · exact (ensures_members_of_dangles h).bind fun _ _ _ _ no => no.elim

end Dangling

/-! ### Any nodes -/

/-- A pass that makes no node a member that dangles, whatever node it is given. -/
def KeepsGround (strays : List Node) (x : Node → Pass Node) : Prop :=
  ∀ (w : Work) (n : Node), (Work.within (Grounded strays)).Ensures (x n) w fun _ _ => True

/-- A node that dangles is not taken apart, and of any other a pass makes one that does not. -/
theorem KeepsGround.of_preserves {x : Node → Pass Node}
    (preserves : Preserves (Grounded strays) (Backed strays) x)
    (still : ∀ {w : Work} {n : Node}, w.store.dangles n = true →
      (Work.within (· = w.store)).Ensures (x n) w fun _ _ => True) :
    KeepsGround strays x := by
  intro w n
  cases h : w.store.dangles n with
  | false => exact (preserves (.of_not_dangles h)).mono fun _ _ _ _ _ => trivial
  | true =>
    intro hw
    cases run : x n w with
    | ok n' w' =>
      obtain ⟨same, le, -⟩ := (still h).of_ok rfl run
      exact ⟨show w'.store.Grounded strays from same ▸ hw, le, trivial⟩
    | error failure w' =>
      obtain ⟨same, le, fails⟩ := (still h).of_error rfl run
      exact ⟨show w'.store.Grounded strays from same ▸ hw, le, fails⟩

theorem keepsGround_pruneUnder (assumptions : List Node) :
    KeepsGround strays (pruneUnder · assumptions) :=
  .of_preserves (preserves_pruneUnder (Store.hereditary_backed strays) assumptions) fun {w n} h =>
    (ensures_pruneWithin_of_dangles h (w.store.effort n)).of_run_eq rfl

theorem keepsGround_prune : KeepsGround strays prune := keepsGround_pruneUnder []

theorem keepsGround_distribute (cleanup : Nat) : KeepsGround strays (distribute cleanup) :=
  .of_preserves (preserves_distribute (Store.hereditary_backed strays) cleanup) fun {w n} h =>
    (ensures_distributeWithin_of_dangles h cleanup (w.store.effort n)).of_run_eq rfl

theorem keepsGround_factor : KeepsGround strays factor :=
  .of_preserves (preserves_factor (Store.hereditary_backed strays)) fun {w n} h =>
    (ensures_factorWithin_of_dangles h (w.store.effort n)).of_run_eq rfl

/-- **Simplifying makes no node a member that dangles.** -/
theorem keepsGround_simplify (cleanup : Nat) : KeepsGround strays (simplify cleanup) := fun w n =>
  (keepsGround_prune w n).bind fun n w _ _ _ =>
    (keepsGround_distribute cleanup w n).bind fun n w _ _ _ => keepsGround_factor w n

end Pass

end Criteria
