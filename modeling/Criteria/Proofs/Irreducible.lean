import Criteria.Proofs.Repetition
import Criteria.Proofs.Stillness

/-!
# Nodes that nothing can be pruned from

At each position inside a node something is known: in an AND what the siblings say, in an OR that
the leaves among the siblings do not hold (`Store.Position`). A node is *irreducible* under some
assumptions if nowhere inside it what is known tells of the node at the position, and no two
members of one parent call for a change (`Store.Irreducible`).

**Theorem (`spares_pruneWithin`).** An irreducible node is pruned to itself, and no list is added:
each member finds its siblings as they are, because those before it came out as they went in.
-/

namespace Criteria

namespace Store

variable {v : Vocabulary} {s t : Store} {k : Connective} {n m : Node} {l l' as as' : List Node}
  {known assumptions : List Node}

/-! ## What is known -/

/-- The assumptions that members give to a sibling: in an AND themselves, in an OR the complements
of the leaves, which are there already. -/
def Premises (s : Store) : Connective → List Node → List Node → Prop
  | .and, l, as => as = l
  | .or, l, as =>
    List.Forall₂ (fun x a => Build.complement x s = .ok a s) (l.filter (·.isLeaf)) as

theorem premises_nil : s.Premises k [] [] := by
  cases k with
  | and => rfl
  | or => exact .nil

theorem Premises.append (h : s.Premises k l as) (h' : s.Premises k l' as') :
    s.Premises k (l ++ l') (as ++ as') := by
  cases k with
  | and => rw [show as = l from h, show as' = l' from h']; rfl
  | or =>
    show List.Forall₂ _ (List.filter _ (l ++ l')) _
    rw [List.filter_append]
    exact List.rel_append h h'

theorem Premises.unique (h : s.Premises k l as) (h' : s.Premises k l as') : as = as' := by
  cases k with
  | and => exact Eq.trans h (Eq.symm h')
  | or =>
    rw [← List.forall₂_eq_eq_eq]
    refine forall₂_comp (List.Forall₂.flip h) h' fun {a x b} ha hb => ?_
    have same : (EStateM.Result.ok a s : EStateM.Result Fault Store Node) = .ok b s :=
      Eq.trans (Eq.symm ha) hb
    cases same
    rfl

/-- What is given lasts. -/
theorem Premises.mono (le : s.Extends t) (h : s.Premises k l as) : t.Premises k l as := by
  cases k with
  | and => exact h
  | or => exact List.Forall₂.imp (fun x a run =>
      Build.run_again (Build.recurs_complement x) run le) h

theorem exists_premises (h : ∀ x ∈ l, ∃ as, s.Premises k [x] as) : ∃ as, s.Premises k l as := by
  induction l with
  | nil => exact ⟨[], premises_nil⟩
  | cons x l ih =>
    rw [List.forall_mem_cons] at h
    obtain ⟨as, has⟩ := h.1
    obtain ⟨as', has'⟩ := ih h.2
    exact ⟨as ++ as', has.append has'⟩

theorem exists_premises_of_siblings {front back : List Node} {x : Node}
    (h : ∀ y ∈ front ++ x :: back, ∃ as, s.Premises k [y] as) :
    ∃ as, s.Premises k (front ++ back) as := by
  have siblings := List.Sublist.append_left (List.sublist_cons_self x back) front
  exact exists_premises fun y hy => h y (siblings.mem hy)

/-- Where a node stands inside another, and what is known there: the assumptions at the outset, and
at each step from a node to a member what the siblings of the member give. -/
inductive Position (s : Store) (n : Node) (assumptions : List Node) : Node → List Node → Prop
  | root : Position s n assumptions n assumptions
  | member {p m : Node} {known front back as : List Node} {k : Connective} :
      Position s n assumptions p known → p.connective? = some k →
      s.list? p.number = some (front ++ m :: back) → s.Premises k (front ++ back) as →
      Position s n assumptions m (known ++ as)

theorem Position.validNode (hs : s.Valid v) (hn : s.ValidNode v n)
    (pos : s.Position n assumptions m known) : s.ValidNode v m := by
  cases pos with
  | root => exact hn
  | member _ _ hl _ => exact hs.members _ _ hl m (List.mem_append_right _ List.mem_cons_self)

/-! ## Irreducible nodes -/

/-- The assumptions tell nothing of a node. -/
def Silent (s : Store) (assumptions : List Node) (n : Node) : Prop :=
  ∀ a ∈ assumptions, s.implies a n = .ok false ∧ s.contradicts a n = .ok false

theorem silent_iff : s.Silent assumptions n ↔ s.settledBy n assumptions = .ok none := by
  induction assumptions with
  | nil => exact iff_of_true (fun a ha => by cases ha) rfl
  | cons a rest ih =>
    rw [Silent, List.forall_mem_cons, settledBy]
    constructor
    · rintro ⟨⟨implied, contradicted⟩, others⟩
      rw [implied, contradicted]
      exact ih.1 others
    · intro h
      obtain ⟨implied, himplied, h⟩ := bind_eq_ok_iff.1 h
      cases implied with
      | true => cases h
      | false =>
      obtain ⟨contradicted, hcontradicted, h⟩ := bind_eq_ok_iff.1 h
      cases contradicted with
      | true => cases h
      | false => exact ⟨⟨himplied, hcontradicted⟩, ih.2 h⟩

theorem Silent.mono (le : s.Extends t) (h : s.Silent assumptions n) : t.Silent assumptions n :=
  silent_iff.2 (lasting_settledBy n assumptions s t none le.partOf (silent_iff.1 h))

theorem Silent.left (h : s.Silent (known ++ as) n) : s.Silent known n :=
  fun a ha => h a (List.mem_append_left as ha)

/-- No two of the members call for a change. -/
def Retained (s : Store) (k : Connective) (l : List Node) : Prop :=
  l.Pairwise fun a b => s.advise k a b = .ok .retainBoth

theorem Retained.mono (le : s.Extends t) (h : s.Retained k l) : t.Retained k l :=
  h.imp fun {a b} advised => lasting_advise k a b s t _ le.partOf advised

/-- A node inside which, under some assumptions, nothing tells of anything else. -/
inductive Irreducible (s : Store) : List Node → Node → Prop
  | intro {known : List Node} {n : Node} : s.Silent known n →
      (∀ k l, n.connective? = some k → s.list? n.number = some l →
        s.Retained k l ∧ ∀ x ∈ l, ∃ as, s.Premises k [x] as) →
      (∀ k front x back as, n.connective? = some k →
        s.list? n.number = some (front ++ x :: back) → s.Premises k (front ++ back) as →
        Irreducible s (known ++ as) x) →
      Irreducible s known n

/-- Members that are irreducible under what is known and what their siblings give. -/
structure Standing (s : Store) (k : Connective) (known l : List Node) : Prop where
  premised : ∀ x ∈ l, ∃ as, s.Premises k [x] as
  member : ∀ front x back as, l = front ++ x :: back → s.Premises k (front ++ back) as →
    s.Irreducible (known ++ as) x

namespace Standing

theorem nil : s.Standing k known [] where
  premised := by simp
  member front x back _ eq := by simp at eq

/-- The first member has the others for siblings, and these have it for one. -/
theorem cons_iff {as' : List Node} (hm : s.Premises k [m] as) (hl : s.Premises k l as') :
    s.Standing k known (m :: l) ↔ s.Irreducible (known ++ as') m ∧ s.Standing k (known ++ as) l := by
  constructor
  · intro h
    refine ⟨h.member [] m l as' rfl hl, fun x hx => h.premised x (List.mem_cons_of_mem m hx), ?_⟩
    intro front x back as'' eq given
    rw [List.append_assoc]
    refine h.member (m :: front) x back _ (by rw [eq]; rfl) ?_
    exact hm.append given
  · rintro ⟨first, others⟩
    refine ⟨List.forall_mem_cons.2 ⟨⟨as, hm⟩, others.premised⟩, ?_⟩
    rintro (- | ⟨m', front⟩) x back as'' eq given
    · obtain ⟨rfl, rfl⟩ := List.cons.inj eq
      exact hl.unique given ▸ first
    · obtain ⟨rfl, rfl⟩ := List.cons.inj eq
      obtain ⟨rest, hrest⟩ := exists_premises_of_siblings others.premised
      obtain rfl := given.unique (hm.append hrest)
      rw [← List.append_assoc]
      exact others.member front x back rest rfl hrest

end Standing

namespace Irreducible

theorem silent (h : s.Irreducible known n) : s.Silent known n := by
  cases h with
  | intro silent => exact silent

theorem retained (h : s.Irreducible known n) (hk : n.connective? = some k)
    (hl : s.list? n.number = some l) : s.Retained k l := by
  cases h with
  | intro _ here => exact (here k l hk hl).1

theorem standing (h : s.Irreducible known n) (hk : n.connective? = some k)
    (hl : s.list? n.number = some l) : s.Standing k known l := by
  cases h with
  | intro _ here members =>
    refine ⟨(here k l hk hl).2, ?_⟩
    rintro front x back as rfl given
    exact members k front x back as hk hl given

theorem of_standing (silent : s.Silent known n)
    (h : ∀ k l, n.connective? = some k → s.list? n.number = some l →
      s.Retained k l ∧ s.Standing k known l) : s.Irreducible known n :=
  .intro silent (fun k l hk hl => ⟨(h k l hk hl).1, (h k l hk hl).2.premised⟩)
    fun k front x back as hk hl given => (h k _ hk hl).2.member front x back as rfl given

theorem of_leaf (silent : s.Silent known n) (hk : n.connective? = none) :
    s.Irreducible known n :=
  of_standing silent fun k l hk' _ => by
    rw [hk] at hk'
    cases hk'

/-- Without assumptions there is nothing that could tell of a constant. -/
theorem of_isConstant (h : n.isConstant = true) : s.Irreducible [] n := by
  refine of_leaf (fun a ha => by cases ha) ?_
  rw [Node.connective?_eq_none_iff, Bool.eq_false_iff]
  intro comb
  rw [Node.not_isConstant_of_isCombined comb] at h
  cases h

/-- Leaves of an AND none of which tells of another. -/
theorem of_leaves (hk : n.connective? = some .and) (hl : s.list? n.number = some l)
    (nodup : l.Nodup) (leaves : ∀ m ∈ l, m.isLeaf = true)
    (apart : ∀ a ∈ l, ∀ b ∈ l, a ≠ b →
      (b.isKnown && a.requires b.argument) = false ∧ a.conflicts b = false) :
    s.Irreducible [] n := by
  have implies : ∀ a ∈ l, ∀ b ∈ l, a ≠ b → s.implies a b = .ok false := by
    intro a ha b hb ne
    rw [implies_leaf (leaves a ha) (leaves b hb), (apart a ha b hb ne).1]
    simp [ne]
  refine of_standing (fun a ha => by cases ha) fun k l' hk' hl' => ?_
  cases hk.symm.trans hk'
  cases hl.symm.trans hl'
  refine ⟨nodup.imp_of_mem fun {a b} ha hb ne => ?_, fun x _ => ⟨[x], rfl⟩, ?_⟩
  · rw [advise_and_of_leaves (leaves a ha) (leaves b hb) ne (apart a ha b hb ne).2, adviseImplied,
      implies a ha b hb ne, implies b hb a ha ne.symm]
    rfl
  · rintro front x back as rfl rfl
    have hx : x ∈ front ++ x :: back := List.mem_append_right front List.mem_cons_self
    refine of_leaf (fun a ha => ?_) ?_
    · have ha' := (List.Sublist.append_left (List.sublist_cons_self x back) front).mem ha
      have ne : a ≠ x := fun eq => (List.nodup_middle.1 nodup).notMem (eq ▸ ha)
      refine ⟨implies a ha' x hx ne, ?_⟩
      rw [contradicts_leaf (leaves a ha') (leaves x hx), (apart a ha' x hx ne).2]
    · exact Node.connective?_eq_none_iff.2 (Node.not_isCombined_of_isLeaf (leaves x hx))

/-- Irreducible members of an OR that give nothing to each other, and do not imply each other. -/
theorem of_alternatives (hk : n.connective? = some .or) (hl : s.list? n.number = some l)
    (members : ∀ m ∈ l, m.isCombined = true ∧ s.Irreducible [] m)
    (apart : l.Pairwise fun a b => a ≠ b ∧ s.implies a b = .ok false ∧ s.implies b a = .ok false) :
    s.Irreducible [] n := by
  have nothing : ∀ l' : List Node, (∀ m ∈ l', m ∈ l) → s.Premises .or l' [] := by
    intro l' sub
    have none : l'.filter (·.isLeaf) = [] := List.filter_eq_nil_iff.2 fun m hm leaf => by
      have comb := (members m (sub m hm)).1
      rw [Node.not_isCombined_of_isLeaf leaf] at comb
      cases comb
    rw [Premises, none]
    exact .nil
  refine of_standing (fun a ha => by cases ha) fun k l' hk' hl' => ?_
  cases hk.symm.trans hk'
  cases hl.symm.trans hl'
  refine ⟨apart.imp_of_mem fun {a b} ha hb apart => ?_, fun x hx => ⟨[], ?_⟩, ?_⟩
  · obtain ⟨ne, forth, back⟩ := apart
    obtain ⟨k, hk⟩ := Node.exists_connective? (members a ha).1
    obtain ⟨k', hk'⟩ := Node.exists_connective? (members b hb).1
    rw [advise_or_of_combined hk hk' ne, adviseImplied, forth, back]
    rfl
  · exact nothing [x] (List.forall_mem_singleton.2 hx)
  · rintro front x back as rfl given
    have siblings := List.Sublist.append_left (List.sublist_cons_self x back) front
    obtain rfl := given.unique (nothing _ fun m hm => siblings.mem hm)
    exact (members x (List.mem_append_right front List.mem_cons_self)).2

/-- An irreducible node stays irreducible as lists are added. -/
theorem mono (hs : s.Valid v) (le : s.Extends t) (hn : s.ValidNode v n)
    (h : s.Irreducible known n) : t.Irreducible known n := by
  induction h with
  | @intro known n silent here members ih =>
    have list : ∀ {k l}, n.connective? = some k → t.list? n.number = some l →
        s.list? n.number = some l := by
      intro k l hk hl
      obtain ⟨l', hl', -⟩ := hn.list? hk
      rwa [← (le.list? hl').symm.trans hl]
    refine .intro (silent.mono le) (fun k l hk hl => ?_) fun k front x back as hk hl given => ?_
    · obtain ⟨retained, premised⟩ := here k l hk (list hk hl)
      refine ⟨retained.mono le, fun x hx => ?_⟩
      obtain ⟨as, given⟩ := premised x hx
      exact ⟨as, given.mono le⟩
    · have hl := list hk hl
      obtain ⟨as', given'⟩ := exists_premises_of_siblings (here k _ hk hl).2
      obtain rfl := given.unique (given'.mono le)
      have mem : x ∈ front ++ x :: back := List.mem_append_right front List.mem_cons_self
      exact ih k front x back as hk hl given' (hs.members _ _ hl x mem)

/-- An irreducible node is irreducible at each position inside it. -/
theorem of_position (h : s.Irreducible assumptions n) (pos : s.Position n assumptions m known) :
    s.Irreducible known m := by
  induction pos with
  | root => exact h
  | member _ hk hl given ih => exact (ih.standing hk hl).member _ _ _ _ rfl given

end Irreducible

theorem Standing.mono (hs : s.Valid v) (le : s.Extends t) (hl : ∀ m ∈ l, s.ValidNode v m)
    (h : s.Standing k known l) : t.Standing k known l where
  premised x hx := by
    obtain ⟨as, given⟩ := h.premised x hx
    exact ⟨as, given.mono le⟩
  member := by
    rintro front x back as rfl given
    obtain ⟨as', given'⟩ := exists_premises_of_siblings h.premised
    obtain rfl := given.unique (given'.mono le)
    have mem : x ∈ front ++ x :: back := List.mem_append_right front List.mem_cons_self
    exact (h.member front x back as rfl given').mono hs le (hl x mem)

end Store

/-! ## Pruning them -/

namespace Pass

open Store (Premises Irreducible Standing Retained)

variable {v : Vocabulary} {s : Store} {w : Work} {k : Connective} {n m : Node}
  {l as known : List Node} {p : Node → List Node → Pass Node} {fuel rounds : Nat} {α : Type}

theorem ne_absorbingNode (hm : m.isConstant = false) : m ≠ k.absorbingNode := by
  rintro rfl
  cases k <;> cases hm

/-- The assumptions leave all members of an OR open. -/
theorem openMembers_of_standing (h : s.Standing .or known l) :
    openMembers s known l = .ok (some l) := by
  have open' : ∀ x ∈ l, s.settledBy x known = .ok none := by
    intro x hx
    obtain ⟨front, back, rfl⟩ := List.append_of_mem hx
    obtain ⟨as, given⟩ := Store.exists_premises_of_siblings h.premised
    exact Store.silent_iff.1 (h.member front x back as rfl given).silent.left
  clear h
  induction l with
  | nil => rfl
  | cons x rest ih =>
    rw [List.forall_mem_cons] at open'
    rw [openMembers, open'.1, ih open'.2]
    rfl

/-- Pruning leaves irreducible nodes alone. -/
def Spares (v : Vocabulary) (s : Store) (p : Node → List Node → Pass Node) : Prop :=
  ∀ {w : Work} {n : Node} {known : List Node}, s.ValidNode v n → s.Irreducible known n →
    (Work.still s).Ensures (p n known) w fun n' _ => n' = n

theorem still_premise (hn : s.ValidNode v m) (hm : m.isConstant = false)
    (given : s.Premises k [m] as) :
    (Work.still s).Ensures (premise k m) w fun p _ => p.toList = as := by
  cases k with
  | and =>
    have ne : m ≠ .all := by
      rintro rfl
      cases hm
    refine .pure fun _ => ?_
    rw [if_neg ne]
    exact Eq.symm given
  | or =>
    have given : List.Forall₂ (fun x a => Build.complement x s = .ok a s)
      ([m].filter (·.isLeaf)) as := given
    unfold premise
    simp only [hm, Bool.or_false]
    rcases hn.isLeaf_or_isCombined hm with leaf | comb
    · rw [List.filter_cons_of_pos (by simpa using leaf), List.filter_nil] at given
      obtain ⟨a, rest, complement, others, rfl⟩ := List.forall₂_cons_left_iff.1 given
      cases others
      rw [if_neg (Bool.eq_false_iff.1 (Node.not_isCombined_of_isLeaf leaf))]
      refine (still_build complement).map fun a' _ _ _ eq => ?_
      rw [eq]
      rfl
    · have inner : m.isLeaf = false := by
        rw [Bool.eq_false_iff]
        intro leaf
        rw [Node.not_isCombined_of_isLeaf leaf] at comb
        cases comb
      rw [List.filter_cons_of_neg (by simp [inner]), List.filter_nil] at given
      cases given
      rw [if_pos comb]
      exact .pure fun _ => rfl

/-- What the members that are still to be pruned give. -/
theorem premises_pending {pending : List Pending}
    (h : ∀ x ∈ pending, s.Premises k [x.member] x.premise.toList) :
    s.Premises k (pending.map (·.member)) (pending.filterMap (·.premise)) := by
  induction pending with
  | nil => exact Store.premises_nil
  | cons x pending ih =>
    rw [List.forall_mem_cons] at h
    have given := h.1.append (ih h.2)
    rw [List.filterMap_cons]
    cases eq : x.premise with
    | none => rwa [eq] at given
    | some a => rwa [eq] at given

theorem spares_pruneFrom (hp : Spares v s p) {pending : List Pending}
    (standing : s.Standing k known (m :: pending.map (·.member)))
    (inner : ∀ x ∈ m :: pending.map (·.member), s.ValidNode v x ∧ x.isConstant = false)
    (given : ∀ x ∈ pending, s.Premises k [x.member] x.premise.toList) :
    (Work.still s).Ensures (pruneFrom p k known m pending) w fun out _ =>
      out = some (m :: pending.map (·.member)) := by
  induction pending generalizing w m known with
  | nil =>
    have here := (inner m List.mem_cons_self)
    obtain ⟨as, premised⟩ := standing.premised m List.mem_cons_self
    obtain ⟨irreducible, -⟩ := (Standing.cons_iff premised Store.premises_nil).1 standing
    rw [List.append_nil] at irreducible
    rw [pruneFrom]
    refine (hp here.1 irreducible).bind fun m' _ _ _ eq => .pure fun _ => ?_
    rw [eq, if_neg (ne_absorbingNode here.2)]
    rfl
  | cons next rest ih =>
    rw [List.map_cons, List.forall_mem_cons] at inner
    obtain ⟨as, premised⟩ := standing.premised m List.mem_cons_self
    obtain ⟨irreducible, others⟩ :=
      (Standing.cons_iff premised (premises_pending given)).1 standing
    rw [pruneFrom]
    refine (hp inner.1.1 irreducible).bind fun m' _ _ _ eq => ?_
    rw [eq, if_neg (ne_absorbingNode inner.1.2)]
    refine still_check.bind fun _ _ _ _ _ => ?_
    refine (still_premise inner.1.1 inner.1.2 premised).bind fun p _ _ _ same => ?_
    rw [same]
    refine (ih others inner.2 fun x hx => given x (List.mem_cons_of_mem _ hx)).map
      fun out _ _ _ eq => ?_
    rw [eq]
    rfl

theorem spares_pruneMembers (hp : Spares v s p) (standing : s.Standing k known l)
    (inner : ∀ x ∈ l, s.ValidNode v x ∧ x.isConstant = false) :
    (Work.still s).Ensures (pruneMembers p k known l) w fun out _ => out = some l := by
  cases l with
  | nil => exact .pure fun _ => rfl
  | cons m rest =>
    rw [pruneMembers]
    refine still_check.bind fun _ w₁ _ _ _ => ?_
    have pend : (Work.still s).Ensures
        (rest.mapM fun n => return (⟨n, ← premise k n⟩ : Pending)) w₁ fun pending _ =>
          pending.map (·.member) = rest ∧
            ∀ x ∈ pending, s.Premises k [x.member] x.premise.toList :=
      .map_mapM (P := fun _ _ => True) (fun _ _ _ _ _ h => h) (fun _ _ _ _ _ h => h)
        (fun n hn w _ => by
          obtain ⟨valid, inconstant⟩ := inner n (List.mem_cons_of_mem m hn)
          obtain ⟨as, given⟩ := standing.premised n (List.mem_cons_of_mem m hn)
          refine (still_premise valid inconstant given).bind fun x _ _ _ eq => .pure fun _ => ?_
          exact ⟨rfl, eq ▸ given⟩)
        fun _ _ => trivial
    refine pend.bind fun pending _ _ _ h => ?_
    obtain ⟨members, given⟩ := h
    rw [← members] at standing inner ⊢
    exact spares_pruneFrom hp standing inner given

/-- Where no two members call for a change, no pair is found that does. -/
theorem spares_findPartner {before between : List Node}
    (h : ∀ r ∈ l, s.advise k n r = .ok .retainBoth) :
    (Work.still s).Ensures (findPartner k n before between l) w fun out _ => out = none := by
  induction l generalizing w between with
  | nil => exact .pure fun _ => rfl
  | cons r after ih =>
    rw [List.forall_mem_cons] at h
    rw [findPartner]
    refine still_check.bind fun _ _ _ _ _ => (still_read h.1).bind fun advice _ _ _ eq => ?_
    rw [eq, if_pos rfl]
    exact ih h.2

theorem spares_findPair {before : List Node} (h : s.Retained k l) :
    (Work.still s).Ensures (findPair k before l) w fun out _ => out = none := by
  induction l generalizing w before with
  | nil => exact .pure fun _ => rfl
  | cons n rest ih =>
    rw [findPair]
    have h := List.pairwise_cons.1 h
    refine (spares_findPartner h.1).bind fun out _ _ _ eq => ?_
    rw [eq]
    exact ih h.2

section Step

variable (hs : s.Valid v) (hn : s.ValidNode v n) (hk : n.connective? = some k)
  (hl : s.list? n.number = some l)
include hk hl

theorem spares_applyAdvice (retained : s.Retained k l) :
    (Work.still s).Ensures (applyAdvice k rounds n) w fun n' _ => n' = n := by
  cases rounds with
  | zero => exact .pure fun _ => rfl
  | succ rounds =>
    rw [applyAdvice, if_neg (not_not.2 hk)]
    refine (still_members hk hl).bind fun ms _ _ _ eq => ?_
    rw [eq]
    refine (spares_findPair retained).bind fun out _ _ _ eq => ?_
    rw [eq]
    exact .pure fun _ => rfl

include hs hn

theorem spares_rejoin (retained : s.Retained k l) :
    (Work.still s).Ensures (rejoin k rounds (some l)) w fun n' _ => n' = n := by
  rw [rejoin]
  refine (still_combine hk hl hs hn).bind fun n' _ _ _ eq => ?_
  rw [eq]
  exact spares_applyAdvice hk hl retained

theorem spares_pruneOnce (hp : Spares v s p) (h : s.Irreducible known n) :
    (Work.still s).Ensures (pruneOnce p rounds known k n) w fun n' _ => n' = n := by
  obtain ⟨l', hl', hc⟩ := hn.list? hk
  cases hl.symm.trans hl'
  have standing := h.standing hk hl
  have inner : ∀ x ∈ l, s.ValidNode v x ∧ x.isConstant = false := fun x hx =>
    ⟨hs.members _ _ hl x hx, hc.not_isConstant hx⟩
  rw [pruneOnce]
  refine (still_members hk hl).bind fun ms _ _ _ eq => ?_
  subst eq
  have rejoined : ∀ w, (Work.still s).Ensures (pruneMembers p k known ms >>= rejoin k rounds) w
      fun n' _ => n' = n := fun w =>
    (spares_pruneMembers hp standing inner).bind fun out _ _ _ eq => by
      rw [eq]
      exact spares_rejoin hs hn hk hl (h.retained hk hl)
  cases k with
  | and => exact rejoined _
  | or =>
    refine (still_read (openMembers_of_standing standing)).bind fun out _ _ _ eq => ?_
    rw [eq]
    exact rejoined _

end Step

/-- **An irreducible node is pruned to itself.** -/
theorem spares_pruneWithin (hs : s.Valid v) (fuel : Nat) : Spares v s (pruneWithin fuel) := by
  induction fuel with
  | zero => exact fun _ _ => .pure fun _ => rfl
  | succ fuel ih =>
    intro w n known hn h
    rw [pruneWithin]
    refine still_check.bind fun _ _ _ _ _ => ?_
    split
    · exact .pure fun _ => rfl
    have silent := Store.silent_iff.1 h.silent
    refine ((still_read silent).bind fun settled _ _ _ eq => .pure fun _ => ?_ :
      (Work.still s).Ensures (settle n known) _ fun out _ => out = none).bind
        fun out _ _ _ eq => ?_
    · rw [eq]
      rfl
    rw [eq]
    simp only
    have round : ∀ w, (Work.still s).Ensures
        (repeatStep (pruneOnce (fun m context => pruneWithin fuel m context) fuel known) [n] fuel n)
        w fun n' _ => n' = n := by
      intro w
      cases fuel with
      | zero => exact .pure fun _ => rfl
      | succ rounds =>
        rw [repeatStep]
        cases hk : n.connective? with
        | none => exact .pure fun _ => rfl
        | some k =>
          obtain ⟨l, hl, -⟩ := hn.list? hk
          refine still_check.bind fun _ _ _ _ _ => ?_
          refine (spares_pruneOnce hs hn hk hl ih h).bind fun n' _ _ _ eq => ?_
          rw [eq, if_pos (by simp)]
          exact .pure fun _ => rfl
    refine (round _).bind fun n' _ _ _ eq => ?_
    rw [eq, if_pos (by simp)]
    exact .pure fun _ => rfl

/-! ## Pruning in one step -/

theorem becomes_settle {out : Option Bool} (h : s.settledBy n known = .ok out) :
    Becomes (settle n known) s (out.map fun holds => if holds then .all else .none) s :=
  (Becomes.read h).bind (.pure _)

theorem becomes_pruneWithin_of_settled {holds : Bool} (hn : n.isConstant = false)
    (h : s.settledBy n known = .ok (some holds)) :
    Becomes (pruneWithin (fuel + 1) n known) s (if holds then .all else .none) s := by
  rw [pruneWithin]
  refine Becomes.check.bind ?_
  rw [if_neg (Bool.eq_false_iff.1 hn)]
  exact (becomes_settle h).bind (.pure _)

/-- A leaf of which the assumptions, which are leaves, tell nothing stays. -/
theorem becomes_pruneWithin_leaf (hs : s.Valid v) (hn : s.ValidNode v n) (leaf : n.isLeaf = true)
    (apart : ∀ a ∈ known, a.isLeaf = true ∧
      (a = n || n.isKnown && a.requires n.argument) = false ∧ a.conflicts n = false) :
    Becomes (pruneWithin fuel n known) s n s := by
  refine .of_still fun _ => spares_pruneWithin hs _ hn (.of_leaf (fun a ha => ?_) ?_)
  · obtain ⟨leaf', implied, contradicted⟩ := apart a ha
    rw [Store.implies_leaf leaf' leaf, Store.contradicts_leaf leaf' leaf, implied, contradicted]
    exact ⟨rfl, rfl⟩
  · exact Node.connective?_eq_none_iff.2 (Node.not_isCombined_of_isLeaf leaf)

section Members

variable {t u : Store} {m' : Node} {ms : List Node} {out : Option (List Node)} {a : Option Node}
  {next : Pending} {rest pending : List Pending}

theorem becomes_premise_and (ne : m ≠ .all) : Becomes (premise .and m) s (some m) s := by
  rw [premise, if_neg ne]
  exact .pure _

theorem becomes_premise_or (hm : m.isCombined = true) : Becomes (premise .or m) s none s := by
  rw [premise, hm]
  exact .pure _

theorem becomes_pruneFrom_nil (last : Becomes (p m known) s m' t) (ne : m' ≠ k.absorbingNode) :
    Becomes (pruneFrom p k known m []) s (some [m']) t := by
  rw [pruneFrom]
  refine last.bind ?_
  rw [if_neg ne]
  exact .pure _

theorem becomes_pruneFrom_cons
    (first : Becomes (p m (known ++ (next :: rest).filterMap (·.premise))) s m' t)
    (ne : m' ≠ k.absorbingNode) (given : Becomes (premise k m') t a t)
    (others : Becomes (pruneFrom p k (known ++ a.toList) next.member rest) t (some ms) u) :
    Becomes (pruneFrom p k known m (next :: rest)) s (some (m' :: ms)) u := by
  rw [pruneFrom]
  refine first.bind ?_
  rw [if_neg ne]
  refine Becomes.check.bind (given.bind ?_)
  exact others.bind (.pure _)

theorem becomes_pruneMembers (pending : List Pending)
    (given : Becomes (l.mapM fun n => return (⟨n, ← premise k n⟩ : Pending)) s pending s)
    (pruned : Becomes (pruneFrom p k known m pending) s out t) :
    Becomes (pruneMembers p k known (m :: l)) s out t := by
  rw [pruneMembers]
  exact Becomes.check.bind (given.bind pruned)

end Members

/-- Members that are pruned to members whose join is kept. -/
theorem becomes_pruneOnce_of_kept {t u : Store} {ms : List Node} (hk : n.connective? = some k)
    (hl : s.list? n.number = some l) (opened : k = .or → openMembers s known l = .ok (some l))
    (pruned : Becomes (pruneMembers p k known l) s (some ms) t)
    (joined : t.combine k ms = .ok (m, u)) (kept : Becomes (applyAdvice k rounds m) u m u) :
    Becomes (pruneOnce p rounds known k n) s m u := by
  have rejoined : Becomes (pruneMembers p k known l >>= rejoin k rounds) s m u :=
    pruned.bind ((Becomes.combine joined).bind kept)
  rw [pruneOnce]
  refine (Becomes.of_still fun _ => still_members hk hl).bind ?_
  cases k with
  | and => exact rejoined
  | or =>
    have asked : Becomes (read (openMembers · known l)) s (some l) s := .read (opened rfl)
    exact asked.bind rejoined

/-- Members that are pruned to members of which no two call for a change. -/
theorem becomes_pruneOnce {t u : Store} {ms l' : List Node} (hk : n.connective? = some k)
    (hl : s.list? n.number = some l) (opened : k = .or → openMembers s known l = .ok (some l))
    (pruned : Becomes (pruneMembers p k known l) s (some ms) t)
    (joined : t.combine k ms = .ok (m, u)) (hk' : m.connective? = some k)
    (hl' : u.list? m.number = some l') (retained : u.Retained k l') :
    Becomes (pruneOnce p rounds known k n) s m u :=
  becomes_pruneOnce_of_kept hk hl opened pruned joined
    (.of_still fun _ => spares_applyAdvice hk' hl' retained)

/-- There is no advice on a node of another connective. -/
theorem becomes_applyAdvice_of_ne (hk : n.connective? ≠ some k) :
    Becomes (applyAdvice k rounds n) s n s := by
  cases rounds with
  | zero => exact .pure n
  | succ rounds =>
    rw [applyAdvice, if_pos hk]
    exact .pure n

/-- If one step leads to another node, which is irreducible, then this is what comes of pruning. -/
theorem becomes_pruneWithin {t : Store} {k' : Connective} (ht : t.Valid v)
    (hk : n.connective? = some k) (silent : s.Silent known n)
    (step : Becomes (pruneOnce (pruneWithin (fuel + 2)) (fuel + 2) known k n) s m t) (ne : m ≠ n)
    (hm : t.ValidNode v m) (hk' : m.connective? = some k') (h : t.Irreducible known m) :
    Becomes (pruneWithin (fuel + 3) n known) s m t := by
  have inconstant : ∀ {n : Node} {k : Connective}, n.connective? = some k →
      n.isConstant = false := fun hk =>
    Node.not_isConstant_of_isCombined (Node.isCombined_of_connective? hk)
  have settled : ∀ {s : Store} {n : Node}, s.Silent known n → Becomes (settle n known) s none s :=
    fun silent => becomes_settle (Store.silent_iff.1 silent)
  obtain ⟨l, hl, -⟩ := hm.list? hk'
  have again : Becomes (pruneOnce (pruneWithin (fuel + 2)) (fuel + 2) known k' m) t m t :=
    .of_still fun _ => spares_pruneOnce ht hm hk' hl (spares_pruneWithin ht (fuel + 2)) h
  rw [pruneWithin]
  refine Becomes.check.bind ?_
  rw [if_neg (Bool.eq_false_iff.1 (inconstant hk))]
  refine (settled silent).bind ?_
  simp only
  have rounds : Becomes (repeatStep (pruneOnce (pruneWithin (fuel + 2)) (fuel + 2) known) [n]
      (fuel + 2) n) s m t := by
    rw [repeatStep, hk]
    refine Becomes.check.bind (step.bind ?_)
    rw [if_neg (by simpa using ne), repeatStep, hk']
    refine Becomes.check.bind (again.bind ?_)
    rw [if_pos (by simp)]
    exact .pure m
  refine rounds.bind ?_
  rw [if_neg (by simp [ne, inconstant hk'])]
  exact (settled h.silent).bind (.pure m)

/-- Four levels are always within reach. -/
theorem becomes_of_effort {x : Nat → Pass Node} {t : Store}
    (h : ∀ fuel, Becomes (x (fuel + 4)) s m t) :
    Becomes (fun w => x (w.store.effort n) w) s m t := by
  obtain ⟨fuel, deep⟩ : ∃ fuel, s.effort n = fuel + 4 := by
    have : 4 ≤ s.effort n :=
      Nat.le_trans (by decide : 4 ≤ Store.outOfReach) (Nat.le_add_right _ _)
    exact ⟨_, (Nat.sub_add_cancel this).symm⟩
  have whole : Becomes (x (s.effort n)) s m t := by
    rw [deep]
    exact h fuel
  exact fun limit used => whole limit used

end Pass

end Criteria
