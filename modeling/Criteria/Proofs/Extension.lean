import Criteria.Pass
import Criteria.Proofs.Coding

/-!
# Meaning and extension

A store that is built on keeps the lists it has. So a valid node stays valid, and what it means
stays the same (`holds_of_list?`): facts about nodes outlive the steps of a computation.

The two facts that all passes are about are *means* and *joins*. `Means v r c s n b` says that `n`
is valid and, as far as the condition `c` goes, has the truth value `b` on the record `r`. `Joins`
says the same of what a connective makes of some members. Where `c` is that some assumptions hold,
these are the facts under the assumptions.

Members are joined by either connective in the same way: the whole has the neutral value just if
all members do (`join_eq_unit_iff`), and all laws of joining follow from that.
-/

namespace Criteria

/-! ## Joining truth values -/

namespace Connective

/-- The value of a member that makes no difference. -/
def unit : Connective → Bool
  | and => true
  | or => false

/-- The value of some members together. -/
def join {α : Type} (k : Connective) (p : α → Bool) (l : List α) : Bool :=
  match k with
  | and => l.all p
  | or => l.any p

variable {α β : Type} {k : Connective} {p q : α → Bool} {l l' : List α}

/-- The members make no difference just if each of them makes none. -/
theorem join_eq_unit_iff : k.join p l = k.unit ↔ ∀ m ∈ l, p m = k.unit := by
  cases k
  · simp [join, unit]
  · simp [join, unit]

theorem bool_ext {a b : Bool} (h : a = k.unit ↔ b = k.unit) : a = b := by
  cases k <;> cases a <;> cases b <;> simp_all [unit]

theorem eq_not_unit_iff {b : Bool} : b = !k.unit ↔ b ≠ k.unit := by
  cases b <;> cases k <;> decide

theorem join_congr (h : ∀ m ∈ l, p m = q m) : k.join p l = k.join q l :=
  bool_ext (by rw [join_eq_unit_iff, join_eq_unit_iff]; exact forall₂_congr fun m hm => by rw [h m hm])

theorem join_eq_of_mem_iff (h : ∀ m, m ∈ l ↔ m ∈ l') : k.join p l = k.join p l' :=
  bool_ext (k := k) (by simp only [join_eq_unit_iff, h])

theorem join_append_eq_unit_iff {l₁ l₂ : List α} : k.join p (l₁ ++ l₂) = k.unit ↔
    k.join p l₁ = k.unit ∧ k.join p l₂ = k.unit := by
  simp only [join_eq_unit_iff, List.mem_append, or_imp, forall_and]

theorem join_cons_eq_unit_iff {a : α} : k.join p (a :: l) = k.unit ↔
    p a = k.unit ∧ k.join p l = k.unit := by
  simp only [join_eq_unit_iff, List.forall_mem_cons]

@[simp] theorem join_nil : k.join p [] = k.unit := join_eq_unit_iff.2 (by simp)

@[simp] theorem join_singleton {a : α} : k.join p [a] = p a :=
  bool_ext (k := k) (by rw [join_cons_eq_unit_iff, join_nil, eq_self, and_true])

theorem join_eq_not_unit {a : α} (ha : a ∈ l) (h : p a = !k.unit) : k.join p l = !k.unit :=
  eq_not_unit_iff.2 fun eq => eq_not_unit_iff.1 h (join_eq_unit_iff.1 eq a ha)

theorem join_cons {a : α} : k.join p (a :: l) = k.join id [p a, k.join p l] :=
  bool_ext (k := k) (by
    rw [join_cons_eq_unit_iff, join_cons_eq_unit_iff, join_singleton, id, id])

theorem join_pair_comm {a b : α} : k.join p [a, b] = k.join p [b, a] :=
  join_eq_of_mem_iff fun m => by simp [or_comm]

theorem join_pair_self {b : Bool} : k.join id [b, b] = b := by cases k <;> cases b <;> rfl

theorem join_unit_pair {b : Bool} : k.join id [k.unit, b] = b :=
  bool_ext (k := k) (by rw [join_cons_eq_unit_iff, join_singleton, id, id, eq_self, true_and])

/-- Of two values of which one implies the other, an AND has the stronger and an OR the weaker. -/
theorem join_pair_of_imp {a b : Bool} (h : a = true → b = true) :
    and.join id [a, b] = a ∧ or.join id [a, b] = b := by
  revert h
  cases a <;> cases b <;> decide

@[simp] theorem unit_dual : k.dual.unit = !k.unit := by cases k <;> rfl

/-- De Morgan: the complements of the members, joined the other way. -/
theorem join_dual : k.dual.join (fun m => !p m) l = !k.join p l :=
  bool_ext (k := k.dual) (by
    rw [join_eq_unit_iff, unit_dual, Bool.not_inj_iff, join_eq_unit_iff]
    simp only [Bool.not_inj_iff])

theorem join_forall₂ {q : β → Bool} {l' : List β} (h : List.Forall₂ (fun a b => q b = p a) l l') :
    k.join q l' = k.join p l := by
  induction h with
  | nil => rw [join_nil, join_nil]
  | cons head _ ih =>
    apply bool_ext (k := k)
    rw [join_cons_eq_unit_iff, join_cons_eq_unit_iff, head, ih]

end Connective

namespace Store

/-! ## Extension -/

/-- All numbers issued in `s` stand for the same in `t`. -/
structure Extends (s t : Store) : Prop where
  size_le : s.size ≤ t.size
  list?_eq : ∀ id < s.size, t.list? id = s.list? id
  threshold_eq : t.threshold = s.threshold

variable {v : Vocabulary} {p : Node → Bool} {s t u : Store} {n : Node} {k : Connective}
  {l : List Node}

theorem Extends.refl (s : Store) : s.Extends s := ⟨Nat.le_refl _, fun _ _ => rfl, rfl⟩

theorem Extends.trans (h : s.Extends t) (h' : t.Extends u) : s.Extends u where
  size_le := Nat.le_trans h.size_le h'.size_le
  list?_eq id lt := (h'.list?_eq id (Nat.lt_of_lt_of_le lt h.size_le)).trans (h.list?_eq id lt)
  threshold_eq := h'.threshold_eq.trans h.threshold_eq

theorem Extends.list? (h : s.Extends t) {id : Nat} (hl : s.list? id = some l) :
    t.list? id = some l :=
  (h.list?_eq id (s.lt_size_of_list? hl)).trans hl

/-- All lists of `s` are in `t`, where a number that stands for nothing in `s` may stand for a
list. -/
structure PartOf (s t : Store) : Prop where
  size_le : s.size ≤ t.size
  list?_of : ∀ {id l}, s.list? id = some l → t.list? id = some l

theorem Extends.partOf (h : s.Extends t) : s.PartOf t := ⟨h.size_le, h.list?⟩

theorem PartOf.refl (s : Store) : s.PartOf s := (Extends.refl s).partOf

theorem PartOf.trans (h : s.PartOf t) (h' : t.PartOf u) : s.PartOf u :=
  ⟨Nat.le_trans h.size_le h'.size_le, fun hl => h'.list?_of (h.list?_of hl)⟩

/-! ## Valid nodes -/

namespace ValidNode

theorem list? (h : s.ValidNode v n) (hk : n.connective? = some k) :
    ∃ l, s.list? n.number = some l ∧ Consolidated k l := by
  cases h with
  | constant hn =>
    rw [Node.not_isConstant_of_isCombined (Node.isCombined_of_connective? hk)] at hn
    exact Bool.noConfusion hn
  | leaf hn =>
    rw [Node.connective?_eq_none_iff.2 (Node.not_isCombined_of_isLeaf hn.isLeaf)] at hk
    cases hk
  | combined hk' hl hc =>
    rw [hk] at hk'
    cases hk'
    exact ⟨_, hl, hc⟩

theorem encodes (h : s.ValidNode v n) (hn : n.isConstant = false) (hk : n.connective? = none) :
    v.Encodes n := by
  cases h with
  | constant hn' => exact (Bool.false_ne_true (hn.symm.trans hn')).elim
  | leaf h => exact h
  | combined hk' =>
    rw [hk] at hk'
    cases hk'

theorem encodes_of_isLeaf (h : s.ValidNode v n) (hn : n.isLeaf = true) : v.Encodes n :=
  h.encodes (Node.not_isConstant_of_isLeaf hn)
    (Node.connective?_eq_none_iff.2 (Node.not_isCombined_of_isLeaf hn))

theorem isLeaf_or_isCombined (h : s.ValidNode v n) (hn : n.isConstant = false) :
    n.isLeaf = true ∨ n.isCombined = true := by
  cases h with
  | constant hn' => exact (Bool.false_ne_true (hn.symm.trans hn')).elim
  | leaf h => exact .inl h.isLeaf
  | combined hk => exact .inr (Node.isCombined_of_connective? hk)

/-- A valid node nests in lists that are there. -/
theorem level_le (h : s.ValidNode v n) : n.level ≤ s.size := by
  unfold Node.level
  split
  · next hn =>
    obtain ⟨k, hk⟩ := Node.exists_connective? hn
    obtain ⟨l, hl, -⟩ := h.list? hk
    exact s.lt_size_of_list? hl
  · exact Nat.zero_le _

theorem mono (le : s.Extends t) (h : s.ValidNode v n) : t.ValidNode v n := by
  cases h with
  | constant hn => exact .constant hn
  | leaf hn => exact .leaf hn
  | combined hk hl hc => exact .combined hk (le.list? hl) hc

end ValidNode

theorem validNode_all : s.ValidNode v .all := .constant (by decide)

theorem validNode_none : s.ValidNode v .none := .constant (by decide)

theorem validNode_neutralNode : s.ValidNode v k.neutralNode := by
  cases k with
  | and => exact validNode_all
  | or => exact validNode_none

theorem validNode_absorbingNode : s.ValidNode v k.absorbingNode := by
  cases k with
  | and => exact validNode_none
  | or => exact validNode_all

/-! ## Members -/

theorem list?_of_members (h : s.members n = .ok l) :
    n.isCombined = true ∧ s.list? n.number = some l := by
  rw [members, bind_eq_ok_iff] at h
  obtain ⟨id, hid, h⟩ := h
  unfold Node.listNumber at hid
  split at hid
  · cases hid
  · split at hid
    · next hn =>
      cases hid
      exact ⟨hn, Raw.lookup_eq_ok_iff.1 h⟩
    · cases hid

theorem members_of_isCombined (h : n.isCombined = true) : s.members n = s.lookup n.number := by
  rw [members, Node.listNumber_of_isCombined h]
  rfl

theorem members_eq_ok (hk : n.connective? = some k) (hl : s.list? n.number = some l) :
    s.members n = .ok l := by
  rw [members_of_isCombined (Node.isCombined_of_connective? hk), Raw.lookup_eq_ok_iff, hl]

/-- The members of a valid node are there. -/
theorem ValidNode.exists_members (h : s.ValidNode v n) (hk : n.connective? = some k) :
    ∃ l, s.members n = .ok l := by
  obtain ⟨l, hl, -⟩ := h.list? hk
  exact ⟨l, members_eq_ok hk hl⟩

/-- The list that is read for a valid node is consolidated and holds valid nodes. -/
theorem Valid.of_members (hs : s.Valid v) (h : s.ValidNode v n) (hl : s.members n = .ok l)
    (hk : n.connective? = some k) : Consolidated k l ∧ ∀ m ∈ l, s.ValidNode v m := by
  have hl := (list?_of_members hl).2
  obtain ⟨l', hl', hc⟩ := h.list? hk
  rw [hl] at hl'
  cases hl'
  exact ⟨hc, hs.members _ _ hl⟩

/-! ## Meaning -/

/-- A combined node means what its connective makes of its members. -/
theorem holds_combined (hs : s.Layered) (hk : n.connective? = some k)
    (hl : s.list? n.number = some l) : s.holds p n = k.join (s.holds p) l := by
  cases k with
  | and => exact holds_and hs hk hl
  | or => exact holds_or hs hk hl

theorem holds_leaf (h : v.Encodes n) : s.holds p n = p n := by
  obtain ⟨ne_all, ne_none⟩ := Node.ne_constant_of_isLeaf h.isLeaf
  rw [holds, holdsWithin, if_neg ne_all, if_neg ne_none,
    Node.connective?_eq_none_iff.2 (Node.not_isCombined_of_isLeaf h.isLeaf)]

theorem holds_neutralNode (k : Connective) : s.holds p k.neutralNode = k.unit := by
  cases k with
  | and => exact holds_all
  | or => exact holds_none

theorem holds_absorbingNode (k : Connective) : s.holds p k.absorbingNode = !k.unit := by
  cases k with
  | and => exact holds_none
  | or => exact holds_all

theorem holdsWithin_of_list? {q : Node → Bool} (hs : s.Valid v)
    (agree : ∀ n, v.Encodes n → q n = p n)
    (keeps : ∀ {id l}, s.list? id = some l → t.list? id = some l) (fuel : Nat)
    (hn : s.ValidNode v n) : t.holdsWithin q fuel n = s.holdsWithin p fuel n := by
  induction fuel generalizing n with
  | zero => rfl
  | succ fuel ih =>
    rw [holdsWithin, holdsWithin]
    cases hk : n.connective? with
    | none =>
      cases constant : n.isConstant with
      | true => rcases Node.isConstant_iff.1 constant with rfl | rfl <;> rfl
      | false => simp only [agree n (hn.encodes constant hk)]
    | some k =>
      obtain ⟨l, hl, -⟩ := hn.list? hk
      have same : ∀ m ∈ l, t.holdsWithin q fuel m = s.holdsWithin p fuel m :=
        fun m hm => ih (hs.members _ _ hl m hm)
      have joined := Connective.join_congr (k := k) same
      simp only [hl, keeps hl, Option.any_some]
      cases k with
      | and => rw [show l.all _ = l.all _ from joined]
      | or => rw [show l.any _ = l.any _ from joined]

/-- A valid node means the same where the lists of its store are kept and leaves mean the same. -/
theorem holds_of_list? {q : Node → Bool} (hs : s.Valid v) (agree : ∀ n, v.Encodes n → q n = p n)
    (keeps : ∀ {id l}, s.list? id = some l → t.list? id = some l) (hn : s.ValidNode v n) :
    t.holds q n = s.holds p n :=
  holdsWithin_of_list? hs agree keeps _ hn

theorem holds_of_extends (hs : s.Valid v) (le : s.Extends t) (hn : s.ValidNode v n) :
    t.holds p n = s.holds p n :=
  holds_of_list? hs (fun _ _ => rfl) le.list? hn

/-- The fault that no number is left, where all that nodes can hold are issued. -/
structure Exhausted (fault : Fault) (s : Store) : Prop where
  fault : ∃ id, fault = .numberTooLarge id
  full : Node.maxNumber < s.size

/-- Stores grow by lists of valid nodes, until they run out of numbers. -/
def growth (v : Vocabulary) : Growth Fault Store where
  valid := Valid v
  le := Extends
  fails := Exhausted
  refl := .refl
  trans := .trans

/-! ## Facts about nodes -/

/-- A valid node with the value `b` on a record, as far as `c` goes. -/
structure Means (v : Vocabulary) (r : Record) (c : Prop) (s : Store) (n : Node) (b : Bool) :
    Prop where
  valid : s.ValidNode v n
  holds : c → s.holds (v.holds r) n = b

/-- Valid nodes that together have the value `b` on a record, as far as `c` goes. -/
structure Joins (v : Vocabulary) (r : Record) (c : Prop) (s : Store) (k : Connective)
    (l : List Node) (b : Bool) : Prop where
  valid : ∀ m ∈ l, s.ValidNode v m
  joined : c → k.join (s.holds (v.holds r)) l = b

variable {r : Record} {c c' : Prop} {b : Bool} {l' : List Node}

namespace Means

theorem of_valid (h : s.ValidNode v n) : Means v r c s n (s.holds (v.holds r) n) :=
  ⟨h, fun _ => rfl⟩

theorem stable : (growth v).Stable fun s => Means v r c s n b := fun hs le h =>
  ⟨h.valid.mono le, fun hc => (holds_of_extends hs le h.valid).trans (h.holds hc)⟩

theorem weaken (h : Means v r c s n b) (imp : c' → c) : Means v r c' s n b :=
  ⟨h.valid, fun hc => h.holds (imp hc)⟩

theorem congr {b' : Bool} (h : Means v r c s n b) (eq : c → b = b') : Means v r c s n b' :=
  ⟨h.valid, fun hc => (h.holds hc).trans (eq hc)⟩

theorem all : Means v r c s .all true := ⟨validNode_all, fun _ => holds_all⟩

theorem none : Means v r c s .none false := ⟨validNode_none, fun _ => holds_none⟩

theorem absorbingNode : Means v r c s k.absorbingNode (!k.unit) :=
  ⟨validNode_absorbingNode, fun _ => holds_absorbingNode k⟩

theorem leaf (h : v.Encodes n) : Means v r c s n (v.holds r n) := ⟨.leaf h, fun _ => holds_leaf h⟩

end Means

namespace Joins

theorem stable : (growth v).Stable fun s => Joins v r c s k l b := fun hs le h =>
  ⟨fun m hm => (h.valid m hm).mono le, fun hc =>
    (Connective.join_congr fun m hm => holds_of_extends hs le (h.valid m hm)).trans (h.joined hc)⟩

theorem congr {b' : Bool} (h : Joins v r c s k l b) (eq : c → b = b') : Joins v r c s k l b' :=
  ⟨h.valid, fun hc => (h.joined hc).trans (eq hc)⟩

theorem singleton (h : Means v r c s n b) : Joins v r c s k [n] b where
  valid m hm := List.mem_singleton.1 hm ▸ h.valid
  joined hc := by rw [Connective.join_singleton, h.holds hc]

theorem cons {b' : Bool} (h : Means v r c s n b) (h' : Joins v r c s k l b') :
    Joins v r c s k (n :: l) (k.join id [b, b']) where
  valid := List.forall_mem_cons.2 ⟨h.valid, h'.valid⟩
  joined hc := by
    apply Connective.bool_ext (k := k)
    rw [Connective.join_cons_eq_unit_iff, h.holds hc, h'.joined hc,
      Connective.join_cons_eq_unit_iff, Connective.join_singleton, id, id]

theorem uncons (h : Joins v r c s k (n :: l) b) :
    ∃ b₁ b₂, Means v r c s n b₁ ∧ Joins v r c s k l b₂ ∧ (c → k.join id [b₁, b₂] = b) :=
  ⟨_, _, .of_valid (h.valid n List.mem_cons_self),
    ⟨fun m hm => h.valid m (List.mem_cons_of_mem _ hm), fun _ => rfl⟩,
    fun hc => Connective.join_cons.symm.trans (h.joined hc)⟩

theorem append {b' : Bool} (h : Joins v r c s k l b) (h' : Joins v r c s k l' b') :
    Joins v r c s k (l ++ l') (k.join id [b, b']) where
  valid m hm := (List.mem_append.1 hm).elim (h.valid m) (h'.valid m)
  joined hc := by
    apply Connective.bool_ext (k := k)
    rw [Connective.join_append_eq_unit_iff, h.joined hc, h'.joined hc,
      Connective.join_cons_eq_unit_iff, Connective.join_singleton, id, id]

theorem unappend (h : Joins v r c s k (l ++ l') b) :
    ∃ b₁ b₂, Joins v r c s k l b₁ ∧ Joins v r c s k l' b₂ ∧ (c → k.join id [b₁, b₂] = b) := by
  have front : Joins v r c s k l _ :=
    ⟨fun m hm => h.valid m (List.mem_append_left _ hm), fun _ => rfl⟩
  have back : Joins v r c s k l' _ :=
    ⟨fun m hm => h.valid m (List.mem_append_right _ hm), fun _ => rfl⟩
  exact ⟨_, _, front, back, fun hc => ((front.append back).joined hc).symm.trans (h.joined hc)⟩

/-- The order of members, and how often each comes, makes no difference. -/
theorem of_mem_iff (h : Joins v r c s k l b) (eq : ∀ m, m ∈ l' ↔ m ∈ l) :
    Joins v r c s k l' b where
  valid m hm := h.valid m ((eq m).1 hm)
  joined hc := by rw [Connective.join_eq_of_mem_iff eq, h.joined hc]

/-- Members that each have the value of another, and so the value of the others together. -/
theorem of_forall₂ {α : Type} {val : α → Bool} {as : List α} (h : c → k.join val as = b)
    (each : List.Forall₂ (fun a m => Means v r c s m (val a)) as l) : Joins v r c s k l b where
  valid m' hm' := by
    obtain ⟨m, -, hm⟩ := exists_of_mem_forall₂ each hm'
    exact hm.valid
  joined hc := by
    rw [← h hc]
    exact Connective.join_forall₂ (each.imp fun m m' hm => hm.holds hc)

end Joins

/-! ## Reading -/

/-- Reading leaves a store as it is. -/
theorem ensures_read {α : Type} {f : Store → Except Fault α} {Q : α → Store → Prop}
    (h : s.Valid v → ∃ a, f s = .ok a ∧ Q a s) : (growth v).Ensures (Build.read f) s Q := by
  intro hs
  obtain ⟨a, eq, hQ⟩ := h hs
  rw [Build.read, eq]
  exact ⟨hs, .refl s, hQ⟩

/-- The members of a node together mean what the node does, and nest less deep. -/
theorem ensures_members (h : Means v r c s n b) (hk : n.connective? = some k) :
    (growth v).Ensures (Build.members n) s fun l s =>
      Joins v r c s k l b ∧ ∀ m ∈ l, m.level < n.level := by
  refine ensures_read fun hs => ?_
  obtain ⟨l, hl⟩ := h.valid.exists_members hk
  have list := (list?_of_members hl).2
  refine ⟨l, hl, ⟨hs.members _ _ list, fun hcond => ?_⟩, fun m => level_lt_of_mem hs.layered hk list⟩
  rw [← holds_combined hs.layered hk list, h.holds hcond]

end Store

/-! ## Passes -/

/-- A pass grows its store, and may run into its limit besides. -/
def Work.lift (g : Growth Fault Store) : Growth Failure Work where
  valid w := g.valid w.store
  le w w' := g.le w.store w'.store
  fails failure w := ∀ fault, failure = .fault fault → g.fails fault w.store
  refl w := g.refl w.store
  trans h h' := g.trans h h'

/-- Passes grow stores by lists of valid nodes. -/
abbrev Work.growth (v : Vocabulary) : Growth Failure Work := Work.lift (Store.growth v)

namespace Pass

section Lift

variable {g : Growth Fault Store} {w : Work} {α : Type}

theorem ensures_check : (Work.lift g).Ensures check w fun _ _ => True := by
  intro hw
  unfold check
  cases w.budget.check with
  | ok budget => exact ⟨hw, g.refl _, trivial⟩
  | error o => exact ⟨hw, g.refl _, fun fault eq => by cases eq⟩

theorem ensures_build {x : Build α} {Q : α → Store → Prop} (h : g.Ensures x w.store Q) :
    (Work.lift g).Ensures (build x) w fun a w => Q a w.store := by
  obtain ⟨s, budget⟩ := w
  refine h.lift (⟨·, budget⟩) .fault ?_ (fun hs => hs) (fun _ _ valid le => ⟨valid, le⟩)
    (fun e s' _ fails fault eq => ?_) (fun _ _ _ _ hQ => hQ)
  · simp only [build]
    cases x s <;> rfl
  · cases eq
    exact fails

end Lift

variable {v : Vocabulary} {r : Record} {c : Prop} {w : Work} {k : Connective} {n : Node}
  {l : List Node} {b : Bool} {α : Type}

theorem ensures_read {f : Store → Except Fault α} {Q : α → Work → Prop}
    (h : w.store.Valid v → ∃ a, f w.store = .ok a ∧ Q a w) :
    (Work.growth v).Ensures (read f) w Q := by
  obtain ⟨s, budget⟩ := w
  intro hw
  obtain ⟨a, eq, hQ⟩ := h hw
  rw [read, build, Build.read, show f s = .ok a from eq]
  exact ⟨hw, .refl s, hQ⟩

theorem ensures_members (h : Store.Means v r c w.store n b) (hk : n.connective? = some k) :
    (Work.growth v).Ensures (members n) w fun l w => Store.Joins v r c w.store k l b :=
  (ensures_build (Store.ensures_members h hk)).mono fun _ _ _ _ h => h.1

/-- A pass keeps the value of every node, as far as any condition goes. -/
def Keeps (v : Vocabulary) (r : Record) (f : Node → Pass Node) : Prop :=
  ∀ {c : Prop} {w : Work} {n : Node} {b : Bool}, Store.Means v r c w.store n b →
    (Work.growth v).Ensures (f n) w fun n' w => Store.Means v r c w.store n' b

theorem Keeps.ensures_mapM {f : Node → Pass Node} (hf : Keeps v r f)
    (h : Store.Joins v r c w.store k l b) :
    (Work.growth v).Ensures (l.mapM f) w fun l' w => Store.Joins v r c w.store k l' b := by
  have each : (Work.growth v).Ensures (l.mapM f) w fun l' w' => List.Forall₂
      (fun m m' => Store.Means v r c w'.store m' (w.store.holds (v.holds r) m)) l l' :=
    .mapM (P := fun m w' => Store.Means v r c (Work.store w') m (w.store.holds (v.holds r) m))
      (fun _ _ _ hs le h => Store.Means.stable hs le h)
      (fun _ _ _ _ hs le h => Store.Means.stable hs le h)
      (fun m _ w hm => hf hm) fun m hm => .of_valid (h.valid m hm)
  exact each.mono fun l' w' _ _ hl' => .of_forall₂ h.joined hl'

end Pass

end Criteria
