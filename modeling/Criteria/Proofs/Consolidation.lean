import Criteria.Proofs.Ascending
import Criteria.Proofs.Extension

/-!
# Building keeps meaning and validity

**Theorem (`ensures_combine`).** Joining valid nodes gives a valid node that means what they mean
together.

Each step of consolidation, lifting, sorting, dropping the neutral constant, keeps what the members
mean together, and what they were made to be by the steps before; so the list that is registered at
the end is consolidated. The members that decide the whole do so on every record.

**Theorem (`ensures_complement`).** The complement of a valid node is a valid node that holds on
exactly the other records.
-/

namespace Criteria

variable {v : Vocabulary} {r : Record} {c : Prop} {s t : Store} {k : Connective} {n : Node}
  {l l' : List Node} {b : Bool}

theorem Ascending.nodup (h : Ascending l) : l.Nodup := h.imp fun lt => ne_of_irrefl lt

theorem Consolidated.not_isConstant (h : Consolidated k l) (hn : n ∈ l) : n.isConstant = false :=
  (h.plain n hn).elim Node.not_isConstant_of_isLeaf Node.not_isConstant_of_isCombined

namespace Store

/-! ## Members that decide the whole -/

theorem exists_of_hasContradiction (h : hasContradiction l = true) :
    ∃ m ∈ l, m.isLeaf = true ∧
      (m.flip ∈ l ∨ m.isUnknown = true ∧ ∃ m' ∈ l, m'.requires m.argument = true) := by
  simp only [hasContradiction, List.any_eq_true, Bool.and_eq_true, Bool.or_eq_true] at h
  obtain ⟨m, hm, leaf, h⟩ := h
  exact ⟨m, hm, leaf, h.imp_left Ascending.mem_of_contains⟩

/-- Members that decide the whole do so on every record. -/
theorem join_of_isDecided (h : k.isDecided l = true) (valid : ∀ m ∈ l, s.ValidNode v m) :
    k.join (s.holds (v.holds r)) l = !k.unit := by
  cases k with
  | and =>
    obtain ⟨m, hm, leaf, h⟩ := exists_of_hasContradiction h
    have code := (valid m hm).encodes_of_isLeaf leaf
    by_cases holds : v.holds r m = true
    · rcases h with flip | ⟨unknown, m', hm', requires⟩
      · apply Connective.join_eq_not_unit flip
        rw [holds_leaf code.flip]
        exact code.not_holds_flip holds
      · have code' := (valid m' hm').encodes_of_isLeaf (Node.isLeaf_of_requires requires)
        apply Connective.join_eq_not_unit hm'
        rw [holds_leaf code']
        exact code.not_holds_of_requires code' unknown requires holds
    · apply Connective.join_eq_not_unit hm
      rw [holds_leaf code]
      exact Bool.eq_false_iff.2 holds
  | or =>
    obtain ⟨m, hm, h⟩ := List.any_eq_true.1 h
    rw [Bool.and_eq_true] at h
    obtain ⟨unknown, flip⟩ := h
    have check := Node.isUnknownCheck_of_isUnknown unknown
    have code := (valid m hm).encodes_of_isLeaf (Node.isLeaf_of_isUnknownCheck check)
    by_cases holds : v.holds r m = true
    · apply Connective.join_eq_not_unit hm
      rw [holds_leaf code, holds]
      rfl
    · apply Connective.join_eq_not_unit (Ascending.mem_of_contains flip)
      rw [holds_leaf code.flip, code.holds_flip_check check r, Bool.eq_false_iff.2 holds]
      rfl

/-! ## Lifting -/

theorem flatten_cons {m : Node} : s.flatten k (m :: l) =
    (if m.connective? = some k then s.members m else .ok [m]) >>= fun front =>
      s.flatten k l >>= fun back => .ok (front ++ back) := by
  rw [flatten]
  split <;> rfl

theorem flatten_cons_eq_ok {m : Node} (h : s.flatten k (m :: l) = .ok l') :
    ∃ front back, (if m.connective? = some k then s.members m else .ok [m]) = .ok front ∧
      s.flatten k l = .ok back ∧ l' = front ++ back := by
  rw [flatten_cons] at h
  obtain ⟨front, hfront, h⟩ := bind_eq_ok_iff.1 h
  obtain ⟨back, hback, h⟩ := bind_eq_ok_iff.1 h
  cases h
  exact ⟨front, back, hfront, hback, rfl⟩

theorem joins_flatten (hs : s.Valid v) (h : Joins v r c s k l b) (eq : s.flatten k l = .ok l') :
    Joins v r c s k l' b ∧ ∀ m ∈ l', m.connective? ≠ some k := by
  induction l generalizing l' b with
  | nil =>
    cases eq
    exact ⟨h, by simp⟩
  | cons m l ih =>
    obtain ⟨front, back, hfront, hback, rfl⟩ := flatten_cons_eq_ok eq
    have tail : Joins v r c s k l (k.join (s.holds (v.holds r)) l) :=
      ⟨fun m hm => h.valid m (List.mem_cons_of_mem _ hm), fun _ => rfl⟩
    obtain ⟨tail, tailLifted⟩ := ih tail hback
    -- The front means what `m` does and is lifted.
    have head : Joins v r c s k front (s.holds (v.holds r) m) ∧
        ∀ m ∈ front, m.connective? ≠ some k := by
      have valid := h.valid m (List.mem_cons_self)
      split at hfront
      · next hk =>
        obtain ⟨hc, validFront⟩ := hs.of_members valid hfront hk
        refine ⟨⟨validFront, fun _ => ?_⟩, hc.lifted⟩
        rw [holds_combined hs.layered hk (list?_of_members hfront).2]
      · next hk =>
        cases hfront
        exact ⟨.singleton (.of_valid valid), by simpa using hk⟩
    obtain ⟨head, headLifted⟩ := head
    refine ⟨⟨fun m' hm' => ?_, fun hc => ?_⟩, fun m' hm' => ?_⟩
    · exact (List.mem_append.1 hm').elim (head.valid m') (tail.valid m')
    · rw [← h.joined hc]
      apply Connective.bool_ext (k := k)
      rw [Connective.join_append_eq_unit_iff, Connective.join_cons_eq_unit_iff, head.joined hc,
        tail.joined hc]
    · exact (List.mem_append.1 hm').elim (headLifted m') (tailLifted m')

/-! ## Registering -/

theorem size_push {new : s.find? l = none} : (s.push l new).size = s.size + 1 := Raw.size_push

theorem live_push {new : s.find? l = none} : (s.push l new).live = s.live + 1 := rfl

theorem list?_push {new : s.find? l = none} {id : Nat} :
    (s.push l new).list? id = if id = s.size then some l else s.list? id := Raw.list?_push

theorem extends_push {new : s.find? l = none} : s.Extends (s.push l new) where
  size_le := by
    rw [size_push]
    exact Nat.le_succ _
  list?_eq id lt := by rw [list?_push, if_neg (Nat.ne_of_lt lt)]
  threshold_eq := rfl

theorem Valid.push {new : s.find? l = none} (hs : s.Valid v) (hl : ∀ m ∈ l, s.ValidNode v m)
    (room : s.size ≤ Node.maxNumber) : (s.push l new).Valid v := by
  -- A list of the new store is the pushed one or was there before.
  have cases_list : ∀ id l', (s.push l new).list? id = some l' →
      id = s.size ∧ l' = l ∨ s.list? id = some l' := by
    intro id l' h
    rw [list?_push] at h
    split at h
    · next eq => exact .inl ⟨eq, (Option.some.inj h).symm⟩
    · exact .inr h
  constructor
  · intro id l' h m hm
    rcases cases_list id l' h with ⟨rfl, rfl⟩ | h
    · exact (hl m hm).level_le
    · exact hs.layered id l' h m hm
  · intro id l' h m hm
    rcases cases_list id l' h with ⟨rfl, rfl⟩ | h
    · exact (hl m hm).mono extends_push
    · exact (hs.members id l' h m hm).mono extends_push
  · rw [size_push]
    exact Nat.succ_le_succ room

/-- A list that is not there gets the next number. -/
theorem register_of_new {new : s.find? l = none} (hl : l.contains .invalid = false)
    (room : s.size ≤ Node.maxNumber) : s.register l = .ok (s.size, s.push l new) := by
  rw [register_eq_ok_iff, Raw.register_of_new hl new, if_pos room]
  rfl

/-- A list that is not there gets the next number if there is one. -/
theorem register_cases (hl : l.contains .invalid = false) (new : s.find? l = none) :
    (s.size ≤ Node.maxNumber ∧ s.register l = .ok (s.size, s.push l new)) ∨
      (Node.maxNumber < s.size ∧ s.register l = .error (.numberTooLarge s.size)) := by
  by_cases room : s.size ≤ Node.maxNumber
  · exact .inl ⟨room, register_of_new hl room⟩
  · refine .inr ⟨Nat.lt_of_not_le room, ?_⟩
    rw [register_eq_error_iff, Raw.register_of_new hl new, if_neg room]

theorem register_of_invalid (hl : l.contains .invalid = true) :
    s.register l = .error .invalidMember :=
  register_eq_error_iff.2 (Raw.register_of_invalid hl)

theorem register_of_find? {id : Nat} (hl : l.contains .invalid = false)
    (found : s.find? l = some id) : s.register l = .ok (id, s) :=
  register_eq_ok_iff.2 (Raw.register_of_find? hl found)

/-- A list that is registered was there or is pushed. -/
theorem register_eq_ok {id : Nat} (eq : s.register l = .ok (id, t)) :
    s.find? l = some id ∧ t = s ∨
      s.size ≤ Node.maxNumber ∧ id = s.size ∧ ∃ new : s.find? l = none, t = s.push l new := by
  rcases Raw.register_eq_ok (register_eq_ok_iff.1 eq) with ⟨found, same⟩ | ⟨new, room, rfl, pushed⟩
  · exact .inl ⟨found, eq_of_toRaw same⟩
  · exact .inr ⟨room, rfl, new, eq_of_toRaw pushed⟩

/-- A list is there under the number that it gets. -/
theorem extends_register {id : Nat} (h : s.register l = .ok (id, t)) :
    s.Extends t ∧ t.list? id = some l := by
  rcases register_eq_ok h with ⟨found, rfl⟩ | ⟨-, rfl, new, rfl⟩
  · exact ⟨.refl t, (find?_eq_some_iff _ _ _).1 found⟩
  · exact ⟨extends_push, by rw [list?_push, if_pos rfl]⟩

theorem Valid.register {id : Nat} (hs : s.Valid v) (hl : ∀ m ∈ l, s.ValidNode v m)
    (h : s.register l = .ok (id, t)) : t.Valid v := by
  rcases register_eq_ok h with ⟨-, rfl⟩ | ⟨room, -, new, rfl⟩
  · exact hs
  · exact hs.push hl room

/-- Registering a list leaves the numbers as they are or issues the next one. -/
theorem size_register {id : Nat} (h : s.register l = .ok (id, t)) :
    t.size = s.size ∨ t.size = s.size + 1 ∧ id = s.size := by
  rcases register_eq_ok h with ⟨-, rfl⟩ | ⟨-, next, new, rfl⟩
  · exact .inl rfl
  · exact .inr ⟨size_push, next⟩

/-- What is wrapped is registered if it has two members at least. -/
theorem wrap_cases (s : Store) (k : Connective) (r : List Node) :
    (r.length < 2 ∧ ∃ n, s.wrap k r = .ok (n, s)) ∨
    (2 ≤ r.length ∧ s.wrap k r = do
      let (id, t) ← s.register r
      return (← Node.ofListNumber k id, t)) := by
  match r with
  | [] => exact .inl ⟨by simp, k.neutralNode, rfl⟩
  | [m] => exact .inl ⟨by simp, m, rfl⟩
  | a :: b :: rest =>
    refine .inr ⟨by simp, ?_⟩
    rw [wrap]
    · simp
    · simp

/-- All that joining can come to: nothing but ascending lists is ever wrapped. -/
theorem combine_cases (s : Store) (k : Connective) (l : List Node) :
    (l.contains .invalid = true ∧ s.combine k l = .error .invalidMember) ∨
    (∃ fault, s.flatten k l = .error fault ∧ s.combine k l = .error fault) ∨
    s.combine k l = .ok (k.absorbingNode, s) ∨
    ∃ r, Ascending r ∧ s.combine k l = s.wrap k r := by
  unfold combine
  by_cases invalid : l.contains .invalid = true
  · rw [if_pos invalid]
    exact .inl ⟨invalid, rfl⟩
  rw [if_neg invalid]
  right
  cases flatten : s.flatten k l with
  | error fault => exact .inl ⟨fault, rfl, rfl⟩
  | ok flat =>
    right
    simp only [bind, Except.bind]
    by_cases absorbing : (Ascending.ofList flat).contains k.absorbingNode = true
    · rw [if_pos absorbing]
      exact .inl rfl
    rw [if_neg absorbing]
    by_cases decided : k.isDecided ((Ascending.ofList flat).filter (· ≠ k.neutralNode)) = true
    · rw [if_pos decided]
      exact .inl rfl
    · rw [if_neg decided]
      refine .inr ⟨_, ?_, rfl⟩
      exact (Ascending.ascending_ofList flat).sublist List.filter_sublist

/-- What joining can give: a constant, the only member that is left, or a node for the members that
are left, which are registered. -/
theorem cases_of_combine (h : s.combine k l = .ok (n, t)) : n.isConstant = true ∧ t = s ∨
    ∃ flat r, s.flatten k l = .ok flat ∧ r.Sublist (Ascending.ofList flat) ∧
      (r = [n] ∧ t = s ∨ ∃ id, s.register r = .ok (id, t) ∧ Node.ofListNumber k id = .ok n) := by
  have absorbing : k.absorbingNode.isConstant = true := by cases k <;> rfl
  have neutral : k.neutralNode.isConstant = true := by cases k <;> rfl
  unfold combine at h
  split at h
  · cases h
  obtain ⟨flat, hflat, h⟩ := bind_eq_ok_iff.1 h
  simp only at h
  split at h
  · cases h
    exact .inl ⟨absorbing, rfl⟩
  split at h
  · cases h
    exact .inl ⟨absorbing, rfl⟩
  unfold wrap at h
  split at h
  · cases h
    exact .inl ⟨neutral, rfl⟩
  · next m single =>
    cases h
    exact .inr ⟨flat, _, hflat, List.filter_sublist, .inl ⟨single, rfl⟩⟩
  · obtain ⟨⟨id, u⟩, registered, h⟩ := bind_eq_ok_iff.1 h
    obtain ⟨n', number, h⟩ := bind_eq_ok_iff.1 h
    cases h
    exact .inr ⟨flat, _, hflat, List.filter_sublist, .inr ⟨id, registered, number⟩⟩

/-- A store that joining changes has registered an ascending list, which the node stands for. -/
theorem register_of_combine (h : s.combine k l = .ok (n, t)) :
    t = s ∨ ∃ ms id, Ascending ms ∧ s.register ms = .ok (id, t) ∧
      Node.ofListNumber k id = .ok n := by
  rcases cases_of_combine h with ⟨-, same⟩ | ⟨flat, r, -, sub, ⟨-, same⟩ | ⟨id, registered, number⟩⟩
  · exact .inl same
  · exact .inl same
  · exact .inr ⟨r, id, (Ascending.ascending_ofList flat).sublist sub, registered, number⟩

/-- A list that is there after registering one is that one or was there before. -/
theorem list?_register_cases {id i : Nat} {m : List Node} (registered : s.register l = .ok (id, t))
    (h : t.list? i = some m) : m = l ∨ s.list? i = some m := by
  rcases register_eq_ok registered with ⟨-, rfl⟩ | ⟨-, -, new, rfl⟩
  · exact .inr h
  · rw [list?_push] at h
    split at h
    · exact .inl (Option.some.inj h).symm
    · exact .inr h

/-- A node that is given for a registered list joins the list. -/
theorem joins_of_register {id : Nat} (registered : s.register l = .ok (id, t))
    (number : Node.ofListNumber k id = .ok n) :
    n.connective? = some k ∧ t.list? n.number = some l := by
  unfold Node.ofListNumber at number
  split at number
  · cases number
  next le =>
  cases number
  have le : id ≤ Node.maxNumber := Nat.not_lt.1 le
  refine ⟨Node.connective?_combined le, ?_⟩
  rw [Node.number_combined le]
  exact (extends_register registered).2

theorem wrap_eq_ok (hs : s.Valid v) (h : Joins v r c s k l b)
    (hc : 2 ≤ l.length → Consolidated k l) (eq : s.wrap k l = .ok (n, t)) :
    t.Valid v ∧ s.Extends t ∧ Means v r c t n b := by
  unfold wrap at eq
  split at eq
  · cases eq
    refine ⟨hs, .refl s, validNode_neutralNode, fun hcond => ?_⟩
    rw [← h.joined hcond, Connective.join_nil, holds_neutralNode]
  · cases eq
    refine ⟨hs, .refl s, h.valid n (List.mem_singleton_self n), fun hcond => ?_⟩
    rw [← h.joined hcond, Connective.join_singleton]
  · next ne_nil ne_singleton =>
    obtain ⟨⟨id, t'⟩, hreg, eq⟩ := bind_eq_ok_iff.1 eq
    obtain ⟨n', hn', eq⟩ := bind_eq_ok_iff.1 eq
    cases eq
    unfold Node.ofListNumber at hn'
    split at hn'
    · cases hn'
    · next le =>
      cases hn'
      have valid := hs.register h.valid hreg
      obtain ⟨ext, hl⟩ := extends_register hreg
      have le : id ≤ Node.maxNumber := Nat.not_lt.1 le
      have hk := Node.connective?_combined (k := k) le
      rw [← Node.number_combined (k := k) le] at hl
      have two : 2 ≤ l.length := by
        match l, ne_nil, ne_singleton with
        | [], ne, _ => exact (ne rfl).elim
        | [m], _, ne => exact (ne m rfl).elim
        | _ :: _ :: l, _, _ => simp
      refine ⟨valid, ext, .combined hk hl (hc two), fun hcond => ?_⟩
      rw [holds_combined valid.layered hk hl, (Joins.stable hs ext h).joined hcond]

/-! ## Combining -/

theorem isConstant_iff_node (k : Connective) :
    n.isConstant = true ↔ n = k.neutralNode ∨ n = k.absorbingNode := by
  rw [Node.isConstant_iff]
  cases k with
  | and => exact Iff.rfl
  | or => exact or_comm

/-- The neutral constant makes no difference. -/
theorem joins_filter (h : Joins v r c s k l b) :
    Joins v r c s k (l.filter (· ≠ k.neutralNode)) b where
  valid m hm := h.valid m (List.mem_of_mem_filter hm)
  joined hc := by
    rw [← h.joined hc]
    apply Connective.bool_ext (k := k)
    rw [Connective.join_eq_unit_iff, Connective.join_eq_unit_iff]
    constructor
    · intro all m hm
      by_cases eq : m = k.neutralNode
      · rw [eq, holds_neutralNode]
      · exact all m (List.mem_filter.2 ⟨hm, decide_eq_true eq⟩)
    · exact fun all m hm => all m (List.mem_of_mem_filter hm)

/-- What is left of lifted members is consolidated unless it is decided or too short. -/
theorem consolidated_filter (h : Joins v r c s k l b) (asc : Ascending l)
    (lifted : ∀ m ∈ l, m.connective? ≠ some k) (absorbing : k.absorbingNode ∉ l)
    (undecided : k.isDecided (l.filter (· ≠ k.neutralNode)) = false)
    (two : 2 ≤ (l.filter (· ≠ k.neutralNode)).length) :
    Consolidated k (l.filter (· ≠ k.neutralNode)) where
  ascending := asc.sublist List.filter_sublist
  two_le := two
  plain m hm := by
    obtain ⟨hm, ne⟩ := List.mem_filter.1 hm
    apply (h.valid m hm).isLeaf_or_isCombined
    rw [Bool.eq_false_iff, Ne, isConstant_iff_node k]
    rintro (rfl | rfl)
    · exact of_decide_eq_true ne rfl
    · exact absorbing hm
  lifted m hm := lifted m (List.mem_of_mem_filter hm)
  undecided := undecided

theorem combine_eq_ok (hs : s.Valid v) (h : Joins v r c s k l b)
    (eq : s.combine k l = .ok (n, t)) : t.Valid v ∧ s.Extends t ∧ Means v r c t n b := by
  unfold combine at eq
  split at eq
  · cases eq
  obtain ⟨flat, hflat, eq⟩ := bind_eq_ok_iff.1 eq
  obtain ⟨h, lifted⟩ := joins_flatten hs h hflat
  have h : Joins v r c s k (Ascending.ofList flat) b :=
    h.of_mem_iff fun m => Ascending.mem_ofList
  have absorbed : (c → (!k.unit) = b) → Means v r c s k.absorbingNode b := fun eq =>
    ⟨validNode_absorbingNode, fun hc => (holds_absorbingNode k).trans (eq hc)⟩
  simp only at eq
  split at eq
  · next mem =>
    cases eq
    refine ⟨hs, .refl s, absorbed fun hc => ?_⟩
    rw [List.contains_iff_mem] at mem
    rw [← h.joined hc, Connective.join_eq_not_unit mem (holds_absorbingNode k)]
  next absorbing =>
  have kept := joins_filter h
  split at eq
  · next decided =>
    cases eq
    refine ⟨hs, .refl s, absorbed fun hc => ?_⟩
    rw [← kept.joined hc, join_of_isDecided decided kept.valid]
  next undecided =>
  refine wrap_eq_ok hs kept (fun two => ?_) eq
  refine consolidated_filter h (Ascending.ascending_ofList flat) (fun m hm => ?_) ?_
    (Bool.eq_false_iff.2 undecided) two
  · exact lifted m (Ascending.mem_ofList.1 hm)
  · rwa [List.contains_iff_mem] at absorbing

/-! ## Running out of numbers -/

theorem ValidNode.ne_invalid (h : s.ValidNode v n) : n ≠ .invalid := by
  rintro rfl
  cases h with
  | constant hn => exact absurd hn (by decide)
  | leaf code => exact absurd code.isLeaf (by decide)
  | combined hk => exact absurd (Node.isCombined_of_connective? hk) (by decide)

theorem contains_invalid (h : ∀ m ∈ l, s.ValidNode v m) : l.contains .invalid = false := by
  rw [Bool.eq_false_iff, Ne, List.contains_iff_mem]
  exact fun mem => (h _ mem).ne_invalid rfl

theorem exists_flatten_eq_ok (h : ∀ m ∈ l, s.ValidNode v m) :
    ∃ l', s.flatten k l = .ok l' := by
  induction l with
  | nil => exact ⟨[], rfl⟩
  | cons m l ih =>
    rw [List.forall_mem_cons] at h
    obtain ⟨back, hback⟩ := ih h.2
    have front : ∃ front,
        (if m.connective? = some k then s.members m else .ok [m]) = .ok front := by
      split
      · next hk => exact h.1.exists_members hk
      · exact ⟨[m], rfl⟩
    obtain ⟨front, hfront⟩ := front
    refine ⟨front ++ back, ?_⟩
    rw [flatten_cons, hfront, hback]
    rfl

theorem exhausted_of_register (h : ∀ m ∈ l, s.ValidNode v m) {fault : Fault}
    (eq : s.register l = .error fault) : Exhausted fault s := by
  obtain ⟨-, invalid | ⟨full, rfl⟩⟩ := Raw.register_eq_error (register_eq_error_iff.1 eq)
  · rw [contains_invalid h] at invalid
    cases invalid
  · exact ⟨⟨_, rfl⟩, full⟩

theorem exhausted_of_wrap (hs : s.Valid v) (h : ∀ m ∈ l, s.ValidNode v m) {fault : Fault}
    (eq : s.wrap k l = .error fault) : Exhausted fault s := by
  unfold wrap at eq
  split at eq
  · cases eq
  · cases eq
  · cases hreg : s.register l with
    | error e =>
      rw [hreg] at eq
      cases eq
      exact exhausted_of_register h hreg
    | ok result =>
      obtain ⟨id, t⟩ := result
      rw [hreg] at eq
      have lt := t.lt_size_of_list? (extends_register hreg).2
      have le := (hs.register h hreg).size_le
      have fits : ¬ Node.maxNumber < id := by omega
      simp only [bind, Except.bind, Node.ofListNumber, if_neg fits] at eq
      cases eq

/-- Valid members are joined to a valid node, and nothing is lost. -/
theorem valid_of_combine (hs : s.Valid v) (h : ∀ m ∈ l, s.ValidNode v m)
    (eq : s.combine k l = .ok (n, t)) : t.Valid v ∧ s.Extends t ∧ t.ValidNode v n := by
  have joins : Joins v (fun _ => none) False s k l true := ⟨h, False.elim⟩
  obtain ⟨ht, le, means⟩ := combine_eq_ok hs joins eq
  exact ⟨ht, le, means.valid⟩

/-- Joining valid nodes fails only when no number is left. -/
theorem exhausted_of_combine (hs : s.Valid v) (h : ∀ m ∈ l, s.ValidNode v m) {fault : Fault}
    (eq : s.combine k l = .error fault) : Exhausted fault s := by
  obtain ⟨flat, hflat⟩ := exists_flatten_eq_ok (k := k) h
  have valid : ∀ m ∈ flat, s.ValidNode v m :=
    (joins_flatten (r := fun _ => none) (c := True) hs ⟨h, fun _ => rfl⟩ hflat).1.valid
  unfold combine at eq
  rw [contains_invalid h, hflat] at eq
  simp only [bind, Except.bind] at eq
  split at eq
  · contradiction
  split at eq
  · cases eq
  split at eq
  · cases eq
  · refine exhausted_of_wrap hs (fun m hm => ?_) eq
    exact valid m (Ascending.mem_ofList.1 (List.mem_of_mem_filter hm))

/-- Whatever joining valid nodes gives, nothing is lost and it is what it is known to be. -/
theorem ensures_combine_of_eq {Q : Node → Store → Prop} (h : ∀ m ∈ l, s.ValidNode v m)
    (imp : ∀ n t, s.Valid v → s.combine k l = .ok (n, t) → Q n t) :
    (growth v).Ensures (Build.combine k l) s Q := by
  intro hs
  unfold Build.combine
  cases eq : s.combine k l with
  | ok result =>
    obtain ⟨n, t⟩ := result
    obtain ⟨ht, le, -⟩ := valid_of_combine hs h eq
    exact ⟨ht, le, imp n t hs eq⟩
  | error fault => exact ⟨hs, .refl s, exhausted_of_combine hs h eq⟩

/-- Joining valid nodes gives a valid node that means what they mean together. -/
theorem ensures_combine (h : Joins v r c s k l b) :
    (growth v).Ensures (Build.combine k l) s fun n t => Means v r c t n b :=
  ensures_combine_of_eq h.valid fun _ _ hs eq => (combine_eq_ok hs h eq).2.2

/-! ## Joining again -/

theorem flatten_eq_self (lifted : ∀ m ∈ l, m.connective? ≠ some k) : s.flatten k l = .ok l := by
  induction l with
  | nil => rfl
  | cons m l ih =>
    rw [List.forall_mem_cons] at lifted
    rw [flatten, if_neg lifted.1, ih lifted.2]
    rfl

/-- Two members at least are wrapped by the node of their list. -/
theorem wrap_of_register {id : Nat} (two : 2 ≤ l.length) (registered : s.register l = .ok (id, t))
    (le : id ≤ Node.maxNumber) : s.wrap k l = .ok (.combined k id, t) := by
  match l, two, registered with
  | _ :: _ :: _, _, registered =>
    rw [wrap, registered]
    · simp only [bind, Except.bind, Node.ofListNumber, if_neg (Nat.not_lt.2 le)]
      rfl
    · simp
    · simp

/-- A list is there under one number. -/
theorem number_unique {i j : Nat} (hi : s.list? i = some l) (hj : s.list? j = some l) : i = j := by
  rw [← find?_eq_some_iff] at hi hj
  exact Option.some.inj (hi.symm.trans hj)

theorem find?_eq_none (h : ∀ id < s.size, s.list? id ≠ some l) : s.find? l = none := by
  rw [Option.eq_none_iff_forall_ne_some]
  intro id found
  have hl := (find?_eq_some_iff s l id).1 found
  exact h id (s.lt_size_of_list? hl) hl

/-- Joining members that leave a new list gives the node of the next number. -/
theorem combine_of_new {l' : List Node} {new : s.find? l = none}
    (rest : s.combine k l' = s.wrap k l) (two : 2 ≤ l.length) (hl : l.contains .invalid = false)
    (room : s.size ≤ Node.maxNumber) :
    s.combine k l' = .ok (.combined k s.size, s.push l new) :=
  rest.trans (wrap_of_register two (register_of_new hl room) room)

/-- Joining the members of a list that is there gives the node of the list. -/
theorem combine_of_consolidated {id : Nat} (hc : Consolidated k l) (hl : s.list? id = some l)
    (le : id ≤ Node.maxNumber) : s.combine k l = .ok (.combined k id, s) := by
  have plain : ∀ m, m.isLeaf = false → m.isCombined = false → l.contains m = false := by
    intro m leaf comb
    rw [Bool.eq_false_iff, Ne, List.contains_iff_mem]
    intro hm
    rcases hc.plain m hm with h | h
    · exact Bool.false_ne_true (leaf.symm.trans h)
    · exact Bool.false_ne_true (comb.symm.trans h)
  have invalid : l.contains .invalid = false := plain .invalid (by decide) (by decide)
  have absorbing : l.contains k.absorbingNode = false :=
    plain _ (by cases k <;> decide) (by cases k <;> decide)
  have neutral : l.filter (· ≠ k.neutralNode) = l := by
    rw [List.filter_eq_self]
    intro m hm
    rw [decide_eq_true_eq]
    rintro rfl
    have := plain k.neutralNode (by cases k <;> decide) (by cases k <;> decide)
    rw [Bool.eq_false_iff, Ne, List.contains_iff_mem] at this
    exact this hm
  have wrapped : s.wrap k l = .ok (.combined k id, s) :=
    wrap_of_register hc.two_le (register_of_find? invalid ((find?_eq_some_iff s l id).2 hl)) le
  unfold combine
  rw [invalid, flatten_eq_self hc.lifted]
  simp only [bind, Except.bind, Ascending.ofList_eq_self hc.ascending]
  rw [if_neg (by simp), absorbing, neutral, hc.undecided, wrapped]
  rfl

/-- Joining the members of a valid node gives the node. -/
theorem combine_eq_self (hs : s.Valid v) (hn : s.ValidNode v n) (hk : n.connective? = some k)
    (hl : s.list? n.number = some l) : s.combine k l = .ok (n, s) := by
  obtain ⟨l', hl', hc⟩ := hn.list? hk
  rw [hl] at hl'
  cases hl'
  have lt := s.lt_size_of_list? hl
  have size := hs.size_le
  have le : n.number ≤ Node.maxNumber := by omega
  rw [combine_of_consolidated hc hl le, Node.combined_number hk]

/-! ## Checks on the arguments of a leaf -/

theorem unknownOfArgument_of_encodes (h : v.Encodes n) :
    n.unknownOfArgument = .ok (.unknownOf n.argument) := by
  obtain ⟨l, h⟩ := Vocabulary.encodes_iff.1 h
  exact bind_eq_ok_iff.2 ⟨_, h.leafOperator, rfl⟩

theorem unknownOfReference_of_encodes (h : v.Encodes n) (ref : n.hasReference = true) :
    n.unknownOfReference = .ok (.unknownOf n.value) := by
  obtain ⟨l, h⟩ := Vocabulary.encodes_iff.1 h
  have compares : l.comparison.operator ≠ .isUnknown := by
    cases h with
    | check name =>
      rw [Node.hasReference_leaf (Vocabulary.lt_maxNames name) Vocabulary.zero_lt_maxValues] at ref
      cases ref
    | value ne => exact ne
    | reference ne => exact ne
  refine bind_eq_ok_iff.2 ⟨_, h.leafOperator, ?_⟩
  rw [decide_eq_false compares, ref]
  rfl

theorem isReference_of_encodes (h : v.Encodes n) : n.isReference = n.hasReference := by
  rw [Node.isReference, h.isLeaf, Bool.true_and]

theorem means_unknownOf {a : Nat} {name : String} (h : v.names.word? a = some name) :
    Means v r c s (.unknownOf a) (!v.knows r a) ∧
      Means v r c s (Node.unknownOf a).flip (v.knows r a) := by
  obtain ⟨code, holds, holds_flip⟩ := v.encodes_unknownOf h r
  rw [← holds, ← holds_flip]
  exact ⟨.leaf code, .leaf code.flip⟩

/-- The node that holds where the arguments of a leaf are known. -/
theorem ensures_knownCheck (code : v.Encodes n) :
    (growth v).Ensures (Build.knownCheck n) s fun n' t => Means v r c t n' (v.knowsAll r n) := by
  have first : (growth v).Ensures (Build.read fun _ => do (← n.unknownOfArgument).negate) s
      fun m t => Means v r c t m (v.knows r n.argument) := by
    obtain ⟨name, word⟩ := code.word_argument
    have flipped := Node.negate_of_isLeaf (v.encodes_unknownOf word r).1.isLeaf
    have eq := bind_eq_ok_iff.2 ⟨_, unknownOfArgument_of_encodes code, flipped⟩
    exact ensures_read fun hs => ⟨_, eq, (means_unknownOf word).2⟩
  refine first.bind fun known t ht _ hknown => ?_
  have eq := isReference_of_encodes code
  split
  · next ref =>
    rw [eq] at ref
    have second : (growth v).Ensures
        (Build.read fun _ => do (← n.unknownOfReference).negate) t
        fun m t => Means v r c t m (v.knows r n.value) := by
      obtain ⟨name, word⟩ := code.word_value ref
      have flipped := Node.negate_of_isLeaf (v.encodes_unknownOf word r).1.isLeaf
      have eq := bind_eq_ok_iff.2 ⟨_, unknownOfReference_of_encodes code ref, flipped⟩
      exact ensures_read fun hs => ⟨_, eq, (means_unknownOf word).2⟩
    refine second.bind fun known' u _ le hknown' => ?_
    have pair := Joins.cons (k := .and) (Means.stable ht le hknown) (.singleton hknown')
    refine (ensures_combine pair).mono fun n' w _ _ h => h.congr fun _ => ?_
    rw [Vocabulary.knowsAll, ref]
    simp [Connective.join]
  · next ref =>
    rw [eq, Bool.not_eq_true] at ref
    refine .pure fun _ => hknown.congr fun _ => ?_
    rw [Vocabulary.knowsAll, ref]
    simp

/-! ## Complements -/

theorem holds_flip_of_isConstant (h : n.isConstant = true) {p : Node → Bool} :
    s.holds p n.flip = !s.holds p n := by
  rcases Node.isConstant_iff.1 h with rfl | rfl
  · rw [Node.flip_all, holds_all, holds_none]
    rfl
  · rw [Node.flip_none, holds_all, holds_none]
    rfl

/-- Constants and unknown checks are complemented by flipping bit 0. -/
theorem means_flip (h : Means v r c s n b)
    (hn : n.isConstant = true ∨ n.isUnknownCheck = true) : Means v r c s n.flip (!b) := by
  rcases hn with constant | check
  · refine ⟨?_, fun hc => by rw [holds_flip_of_isConstant constant, h.holds hc]⟩
    rcases Node.isConstant_iff.1 constant with rfl | rfl
    · exact validNode_none
    · exact validNode_all
  · have leaf : n.isLeaf = true := (Bool.and_eq_true _ _ ▸ check).1
    have code := h.valid.encodes_of_isLeaf leaf
    refine ⟨.leaf code.flip, fun hc => ?_⟩
    rw [holds_leaf code.flip, code.holds_flip_check check, ← h.holds hc, holds_leaf code]

theorem ensures_complementOfLeaf (code : v.Encodes n) (hn : n.isUnknownCheck = false) :
    (growth v).Ensures (Build.complementOfLeaf n) s
      fun n' t => Means v r c t n' (!v.holds r n) := by
  obtain ⟨needs, flipped⟩ := code.holds_comparison hn r
  have first : (growth v).Ensures (Build.read fun _ => n.negate) s
      fun m t => Means v r c t m (v.knowsAll r n && !v.holds r n) :=
    ensures_read fun _ =>
      ⟨_, Node.negate_of_isLeaf code.isLeaf, by rw [← flipped]; exact .leaf code.flip⟩
  have second : ∀ t, (growth v).Ensures (Build.read fun _ => n.unknownOfArgument) t
      fun m t => Means v r c t m (!v.knows r n.argument) := fun t =>
    ensures_read fun _ => by
      obtain ⟨name, word⟩ := code.word_argument
      exact ⟨_, unknownOfArgument_of_encodes code, (means_unknownOf word).1⟩
  refine first.bind fun negation t ht _ hneg => (second t).bind fun unknown u hu le hunknown => ?_
  have hneg := Means.stable ht le hneg
  have eq := isReference_of_encodes code
  split
  · next ref =>
    rw [eq] at ref
    have third : (growth v).Ensures (Build.read fun _ => n.unknownOfReference) u
        fun m t => Means v r c t m (!v.knows r n.value) :=
      ensures_read fun _ => by
        obtain ⟨name, word⟩ := code.word_value ref
        exact ⟨_, unknownOfReference_of_encodes code ref, (means_unknownOf word).1⟩
    refine third.bind fun unknown' w _ le' hunknown' => ?_
    have joins := Joins.cons (k := .or) (Means.stable hu le' hneg)
      (.cons (Means.stable hu le' hunknown) (.singleton hunknown'))
    refine (ensures_combine joins).mono fun n' x _ _ h => h.congr fun _ => ?_
    rw [Vocabulary.knowsAll, ref] at needs ⊢
    revert needs
    simp only [Connective.join]
    cases v.holds r n <;> cases v.knows r n.argument <;> cases v.knows r n.value <;> simp
  · next ref =>
    rw [eq, Bool.not_eq_true] at ref
    have joins := Joins.cons (k := .or) hneg (.singleton hunknown)
    refine (ensures_combine joins).mono fun n' w _ _ h => h.congr fun _ => ?_
    rw [Vocabulary.knowsAll, ref] at needs ⊢
    revert needs
    simp only [Connective.join]
    cases v.holds r n <;> cases v.knows r n.argument <;> simp

/-- The complement of a valid node holds on exactly the other records. -/
theorem ensures_complementWithin {fuel : Nat} (deep : n.level < fuel) (h : Means v r c s n b) :
    (growth v).Ensures (Build.complementWithin fuel n) s fun n' t => Means v r c t n' (!b) := by
  induction fuel generalizing n b s with
  | zero => exact (Nat.not_lt_zero _ deep).elim
  | succ fuel ih =>
    rw [Build.complementWithin]
    split
    · next hn =>
      rw [Bool.or_eq_true] at hn
      exact ensures_read fun _ => ⟨_, Node.negate_of_decidable hn, means_flip h hn⟩
    next hn =>
    rw [Bool.or_eq_true, not_or, Bool.not_eq_true, Bool.not_eq_true] at hn
    split
    · next k hk =>
      refine (ensures_members h hk).bind fun ms t _ _ ⟨joins, lower⟩ => ?_
      -- Each member is complemented at its value at this point.
      have each : (growth v).Ensures (ms.mapM (Build.complementWithin fuel)) t fun ms' u =>
          List.Forall₂ (fun m m' => Means v r c u m' (!t.holds (v.holds r) m)) ms ms' :=
        .mapM (P := fun m u => Means v r c u m (t.holds (v.holds r) m)) (fun _ => Means.stable)
          (fun _ _ => Means.stable)
          (fun m mem u hm => ih (Nat.lt_of_lt_of_le (lower m mem) (Nat.le_of_lt_succ deep)) hm)
          fun m hm => .of_valid (joins.valid m hm)
      refine each.bind fun ms' u _ _ hms' => ?_
      refine ensures_combine (.of_forall₂ (fun hc => ?_) hms')
      rw [Connective.join_dual, joins.joined hc]
    · next hk =>
      have code := h.valid.encodes hn.1 hk
      refine (ensures_complementOfLeaf (r := r) (c := c) code hn.2).mono fun n' t _ _ h' =>
        h'.congr fun hc => ?_
      rw [← h.holds hc, holds_leaf code]

theorem ensures_complement (h : Means v r c s n b) :
    (growth v).Ensures (Build.complement n) s fun n' t => Means v r c t n' (!b) := by
  intro hs
  refine ensures_complementWithin ?_ h hs
  have := h.valid.level_le
  have := hs.size_le
  unfold Build.deepest
  omega

end Store

theorem Pass.combine_of_eq_ok (budget : Budget) (h : s.combine k l = .ok (n, t)) :
    Pass.combine k l ⟨s, budget⟩ = .ok n ⟨t, budget⟩ := by
  simp only [Pass.combine, Pass.build, Build.combine, h]

theorem Pass.ensures_combine {w : Work} (h : Store.Joins v r c w.store k l b) :
    (Work.growth v).Ensures (Pass.combine k l) w fun n w => Store.Means v r c w.store n b :=
  Pass.ensures_build (Store.ensures_combine h)

end Criteria
