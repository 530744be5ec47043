import Criteria.Proofs.Load

/-!
# Leaf occurrences

A node bears as many leaves as occur in the expression that it spells: a leaf that is met twice
counts twice. Joining nodes gives a node that bears no more leaves than they do together
(`ensures_combine_atMost`), and a member bears fewer than all members do (`occurrences_lt_total`),
which is what keeps passes from going on forever.

**Theorem (`occurrences_add_lt_effort`).** The effort that a pass may spend on a node exceeds the
leaves that the node bears by more than there are nodes at all. So whoever spends some of it for
each leaf, and some for each node at most, is never short of it.
-/

namespace Criteria

/-- There are no more nodes than codes. -/
theorem Node.length_le_of_nodup {l : List Node} (h : l.Nodup) : l.length ≤ UInt32.size := by
  have injective : Function.Injective Node.toNat := by
    rintro ⟨a⟩ ⟨b⟩ eq
    exact congrArg Node.mk (UInt32.toNat_inj.1 eq)
  have sub : l.map Node.toNat ⊆ List.range UInt32.size := by
    intro code hcode
    obtain ⟨n, -, rfl⟩ := List.mem_map.1 hcode
    exact List.mem_range.2 n.code.toNat_lt_size
  have le := (List.subperm_of_subset (h.map injective) sub).length_le
  rwa [List.length_map, List.length_range] at le

namespace Store

variable {v : Vocabulary} {s t : Store} {n m : Node} {k : Connective} {l l' : List Node} {c : Nat}

/-! ## Counting -/

/-- How leaves are counted. -/
def counting : Making Nat := ⟨fun _ => 0, fun _ => 1, fun _ => List.foldr (· + ·) 0⟩

/-- How many leaves a node bears. -/
def occurrences (s : Store) (n : Node) : Nat := s.fold counting n

/-- How many leaves some nodes bear together. -/
def total (s : Store) (l : List Node) : Nat := (l.map s.occurrences).foldr (· + ·) 0

theorem occurrences_of_isConstant (h : n.isConstant = true) : s.occurrences n = 0 :=
  load_of_isConstant h

theorem occurrences_of_encodes (code : v.Encodes n) : s.occurrences n = 1 := load_of_encodes code

/-- A combined node bears what its members bear together. -/
theorem occurrences_combined (hs : s.Valid v) (hk : n.connective? = some k)
    (hl : s.list? n.number = some l) : s.occurrences n = s.total l :=
  load_combined hs hk hl

theorem occurrences_of_extends (hs : s.Valid v) (le : s.Extends t) (hn : s.ValidNode v n) :
    t.occurrences n = s.occurrences n :=
  load_of_extends hs le hn

@[simp] theorem total_nil : s.total [] = 0 := rfl

@[simp] theorem total_cons : s.total (n :: l) = s.occurrences n + s.total l := rfl

@[simp] theorem total_append : s.total (l ++ l') = s.total l + s.total l' := loads_append

theorem total_perm (h : l.Perm l') : s.total l = s.total l' := loads_perm h

theorem total_le_of_sublist (h : l.Sublist l') : s.total l ≤ s.total l' := loads_le_of_sublist h

/-- Nodes that are all among others, each of them once, bear no more leaves. -/
theorem total_le_of_subset (nodup : l.Nodup) (sub : l ⊆ l') : s.total l ≤ s.total l' :=
  loads_le_of_subset nodup sub

/-- Merging lists drops what is in both. -/
theorem total_merge_le (l l' : List Node) :
    s.total (Ascending.merge l l') ≤ s.total l + s.total l' := by
  induction l generalizing l' with
  | nil => simp [Ascending.merge]
  | cons n l ih =>
    have split : s.total l' =
        s.total (l'.takeWhile (· < n)) + s.total (Ascending.atLeast n l') := by
      rw [← total_append, Ascending.atLeast, List.takeWhile_append_dropWhile]
    rw [Ascending.merge, total_append, split]
    cases Ascending.atLeast n l' with
    | nil =>
      simp only [total_cons, total_nil]
      omega
    | cons m rest =>
      have shorter := ih rest
      have longer := ih (m :: rest)
      simp only [total_cons] at longer ⊢
      split <;> omega

/-- What is removed from an ascending list and what is left bear no more than the list did. -/
theorem total_add_total_remove_le (hl : Ascending l) (sub : Ascending.subset l' l = true) :
    s.total l' + s.total (Ascending.remove l l') ≤ s.total l := by
  rw [Ascending.subset, Bool.and_eq_true] at sub
  have sub := Ascending.sublist_of_occursIn sub.2
  have hl' : Ascending l' := hl.sublist sub
  have rest := Ascending.remove_sublist l l'
  rw [← total_append]
  refine total_le_of_subset (List.nodup_append'.2
    ⟨hl'.nodup, (hl.sublist rest).nodup, fun m hm hm' => ?_⟩)
    (List.append_subset.2 ⟨sub.subset, rest.subset⟩)
  exact Ascending.not_mem_of_mem_remove hl hl' hm' hm

theorem total_of_extends (hs : s.Valid v) (le : s.Extends t) (h : ∀ m ∈ l, s.ValidNode v m) :
    t.total l = s.total l :=
  loads_of_extends hs le h

/-- Nodes that bear a leaf each. -/
theorem length_le_total (h : ∀ m ∈ l, 1 ≤ s.occurrences m) : l.length ≤ s.total l :=
  length_le_loads h

/-- All nodes but the constants bear a leaf. -/
theorem one_le_occurrences (hs : s.Valid v) (hn : s.ValidNode v n) (h : n.isConstant = false) :
    1 ≤ s.occurrences n :=
  one_le_load (fun _ => Nat.le_refl 1) hs hn h

theorem one_le_occurrences_of_connective? (hs : s.Valid v) (hn : s.ValidNode v n)
    (hk : n.connective? = some k) : 1 ≤ s.occurrences n :=
  one_le_occurrences hs hn (Node.not_isConstant_of_isCombined (Node.isCombined_of_connective? hk))

/-- There are no more members than leaves below them. -/
theorem length_le_total_of_consolidated (hs : s.Valid v) (hc : Consolidated k l)
    (h : ∀ m ∈ l, s.ValidNode v m) : l.length ≤ s.total l :=
  length_le_total (one_le_load_of_mem (fun _ => Nat.le_refl 1) hs hc h)

/-- A member bears fewer leaves than all members together. -/
theorem occurrences_lt_total (hs : s.Valid v) (hc : Consolidated k l)
    (h : ∀ m ∈ l, s.ValidNode v m) (hm : m ∈ l) : s.occurrences m < s.total l :=
  load_lt_loads (fun _ => Nat.le_refl 1) hs hc h hm

/-! ## Joining -/

/-- A valid node that bears `c` leaves at most. -/
structure AtMost (v : Vocabulary) (s : Store) (c : Nat) (n : Node) : Prop where
  valid : s.ValidNode v n
  le : s.occurrences n ≤ c

/-- Valid nodes that bear `c` leaves together at most. -/
structure TotalAtMost (v : Vocabulary) (s : Store) (c : Nat) (l : List Node) : Prop where
  valid : ∀ m ∈ l, s.ValidNode v m
  le : s.total l ≤ c

namespace AtMost

theorem of_isConstant (h : n.isConstant = true) : s.AtMost v c n :=
  ⟨.constant h, by rw [occurrences_of_isConstant h]; exact Nat.zero_le c⟩

theorem of_extends (h : s.AtMost v c n) (hs : s.Valid v) (le : s.Extends t) : t.AtMost v c n :=
  ⟨h.valid.mono le, (occurrences_of_extends hs le h.valid).le.trans h.le⟩

theorem mono {c' : Nat} (h : s.AtMost v c n) (le : c ≤ c') : s.AtMost v c' n :=
  ⟨h.valid, h.le.trans le⟩

end AtMost

namespace TotalAtMost

variable {c' : Nat}

theorem nil : s.TotalAtMost v c [] := ⟨by simp, Nat.zero_le c⟩

theorem of_extends (h : s.TotalAtMost v c l) (hs : s.Valid v) (le : s.Extends t) :
    t.TotalAtMost v c l :=
  ⟨fun m hm => (h.valid m hm).mono le, (total_of_extends hs le h.valid).le.trans h.le⟩

theorem mono (h : s.TotalAtMost v c l) (le : c ≤ c') : s.TotalAtMost v c' l :=
  ⟨h.valid, h.le.trans le⟩

theorem cons (h : s.AtMost v c n) (h' : s.TotalAtMost v c' l) :
    s.TotalAtMost v (c + c') (n :: l) where
  valid := List.forall_mem_cons.2 ⟨h.valid, h'.valid⟩
  le := by
    rw [total_cons]
    exact Nat.add_le_add h.le h'.le

theorem singleton (h : s.AtMost v c n) : s.TotalAtMost v c [n] := cons h (nil (c := 0))

theorem append (h : s.TotalAtMost v c l) (h' : s.TotalAtMost v c' l') :
    s.TotalAtMost v (c + c') (l ++ l') where
  valid m hm := (List.mem_append.1 hm).elim (h.valid m) (h'.valid m)
  le := by
    rw [total_append]
    exact Nat.add_le_add h.le h'.le

theorem perm (h : s.TotalAtMost v c l) (perm : l'.Perm l) : s.TotalAtMost v c l' :=
  ⟨fun m hm => h.valid m (perm.mem_iff.1 hm), (total_perm perm).le.trans h.le⟩

theorem sublist (h : s.TotalAtMost v c l) (sub : l'.Sublist l) : s.TotalAtMost v c l' :=
  ⟨fun m hm => h.valid m (sub.mem hm), (total_le_of_sublist sub).trans h.le⟩

theorem merge (h : s.TotalAtMost v c l) (h' : s.TotalAtMost v c' l') :
    s.TotalAtMost v (c + c') (Ascending.merge l l') where
  valid m hm := (Ascending.mem_merge.1 hm).elim (h.valid m) (h'.valid m)
  le := (total_merge_le l l').trans (Nat.add_le_add h.le h'.le)

/-- The first of some nodes and the others share what they bear together. -/
theorem uncons (h : s.TotalAtMost v c (n :: l)) : s.AtMost v (s.occurrences n) n ∧
    s.TotalAtMost v (s.total l) l ∧ s.occurrences n + s.total l ≤ c := by
  have valid := List.forall_mem_cons.1 h.valid
  refine ⟨⟨valid.1, Nat.le_refl _⟩, ⟨valid.2, Nat.le_refl _⟩, ?_⟩
  rw [← total_cons]
  exact h.le

/-- Each member bears a leaf less at least than all members do. -/
theorem members (h : s.TotalAtMost v c l) (hs : s.Valid v) (hc : Consolidated k l)
    (few : c ≤ c' + 1) : ∀ m ∈ l, s.AtMost v c' m := fun m hm =>
  ⟨h.valid m hm, Nat.le_of_lt_succ
    ((occurrences_lt_total hs hc h.valid hm).trans_le (h.le.trans few))⟩

end TotalAtMost

/-- Joining nodes gives a node that bears no more leaves than they do together. -/
theorem ensures_combine_atMost (h : s.TotalAtMost v c l) :
    (growth v).Ensures (Build.combine k l) s fun n t => t.AtMost v c n :=
  (ensures_combine_load h.valid).mono fun _ _ _ _ h' => ⟨h'.1, h'.2.trans h.le⟩

/-- Joining nodes without the connective at hand gives a node over no more members. -/
theorem ensures_combine_length (lifted : ∀ m ∈ l, m.connective? ≠ some k) :
    additions.Ensures (Build.combine k l) s fun n t =>
      ∀ r, n.connective? = some k → t.list? n.number = some r → r.length ≤ l.length := by
  refine Build.ensures_combine_eq.mono fun n t _ _ eq r hk hr => ?_
  rcases combine_eq_ok_cases eq with constant | ⟨flat, r', flatten, sub, rest⟩
  · have comb := Node.isCombined_of_connective? hk
    rw [Node.not_isConstant_of_isCombined comb] at constant
    cases constant
  rw [flatten_eq_self lifted] at flatten
  cases flatten
  rcases rest with rfl | ⟨-, hr'⟩
  · exact (lifted n (Ascending.mem_ofList.1 (sub.mem List.mem_cons_self)) hk).elim
  · cases hr.symm.trans hr'
    have nodup := ((Ascending.ascending_ofList l).sublist sub).nodup
    exact (List.subperm_of_subset nodup
      fun m hm => Ascending.mem_ofList.1 (sub.mem hm)).length_le

/-- That the arguments of a leaf are known is said by a leaf for each. -/
theorem ensures_knownCheck_atMost (code : v.Encodes n) :
    (growth v).Ensures (Build.knownCheck n) s fun n' t => t.AtMost v 2 n' :=
  (ensures_knownCheck_load (fun _ _ => Nat.le_refl 1) code).mono fun _ _ _ _ h => ⟨h.1, h.2⟩

/-! ## Effort -/

/-- One step of `leafCounts`. -/
def pushCount (counts : Array Nat) (entry : Option (List Node)) : Array Nat :=
  counts.push ((entry.getD []).foldl
    (fun total m => total + if m.isCombined then counts.getD m.number 1 else 1) 0)

theorem leafCounts_eq (s : Store) : s.leafCounts = s.entries.toList.foldl pushCount #[] := by
  rw [leafCounts, ← Array.foldl_toList]
  rfl

/-- Counts that are there are not changed. -/
theorem getD_foldl_pushCount {counts : Array Nat} {i : Nat} (lt : i < counts.size)
    (entries : List (Option (List Node))) :
    (entries.foldl pushCount counts).getD i 1 = counts.getD i 1 := by
  induction entries generalizing counts with
  | nil => rfl
  | cons entry entries ih =>
    rw [List.foldl_cons, ih (by simp [pushCount]; omega)]
    simp only [pushCount, Array.getD_eq_getD_getElem?, Array.getElem?_push_lt lt, lt,
      Array.getElem?_eq_getElem]

theorem size_foldl_pushCount (entries : List (Option (List Node))) :
    (entries.foldl pushCount #[]).size = entries.length := by
  have size : ∀ counts : Array Nat,
      (entries.foldl pushCount counts).size = counts.size + entries.length := by
    induction entries with
    | nil => exact fun _ => rfl
    | cons entry entries ih =>
      intro counts
      rw [List.foldl_cons, ih, pushCount, Array.size_push, List.length_cons]
      omega
  rw [size, Array.size_empty, Nat.zero_add]

theorem foldl_add_eq (f : Node → Nat) (l : List Node) (i : Nat) :
    l.foldl (fun total m => total + f m) i = i + (l.map f).foldr (· + ·) 0 := by
  induction l generalizing i with
  | nil => rfl
  | cons m l ih => rw [List.foldl_cons, ih, Nat.add_assoc, List.map_cons, List.foldr_cons]

theorem foldr_add_le {f g : Node → Nat} (h : ∀ m ∈ l, f m ≤ g m) :
    (l.map f).foldr (· + ·) 0 ≤ (l.map g).foldr (· + ·) 0 := by
  induction l with
  | nil => exact Nat.le_refl 0
  | cons m l ih =>
    rw [List.forall_mem_cons] at h
    exact Nat.add_le_add h.1 (ih h.2)

/-- The count of a list is that of its members, as they came before it. -/
theorem leafCounts_getD {id : Nat} (below : ∀ m ∈ l, m.level ≤ id) (hl : s.list? id = some l) :
    s.leafCounts.getD id 1 = (l.map s.leafCount).foldr (· + ·) 0 := by
  have entry : s.entries.toList[id]? = some (some l) := by
    rwa [Raw.list?, Option.join_eq_some_iff, ← Array.getElem?_toList] at hl
  obtain ⟨lt, entry⟩ := List.getElem?_eq_some_iff.1 entry
  obtain ⟨before, size, whole⟩ : ∃ before : Array Nat, before.size = id ∧
      s.leafCounts = (s.entries.toList.drop id).foldl pushCount before := by
    refine ⟨(s.entries.toList.take id).foldl pushCount #[], ?_, ?_⟩
    · rw [size_foldl_pushCount, List.length_take]
      omega
    · rw [leafCounts_eq, ← List.foldl_append, List.take_append_drop]
  have split : s.leafCounts =
      (s.entries.toList.drop (id + 1)).foldl pushCount (pushCount before (some l)) := by
    rw [whole, ← List.getElem_cons_drop lt, List.foldl_cons, entry]
  -- What is looked up for a member was counted before the list.
  have member : ∀ m ∈ l, (if m.isCombined then before.getD m.number 1 else 1) = s.leafCount m := by
    intro m hm
    rw [leafCount]
    split
    · next comb =>
      have level := below m hm
      rw [Node.level, if_pos comb] at level
      rw [whole, getD_foldl_pushCount (by omega)]
    · rfl
  rw [split, getD_foldl_pushCount (by rw [pushCount, Array.size_push]; omega), pushCount,
    Array.getD_eq_getD_getElem?, ← size, Array.getElem?_push_size, Option.getD_some,
    Option.getD_some, foldl_add_eq, Nat.zero_add]
  exact congrArg (List.foldr (· + ·) 0) (List.map_congr_left member)

/-- A valid node bears no more leaves than are counted below it, also where there are other lists
besides. -/
theorem occurrences_le_leafCount (hs : s.Valid v) (part : s.PartOf t) (hn : s.ValidNode v n) :
    s.occurrences n ≤ t.leafCount n := by
  refine hs.induction (P := fun n => s.occurrences n ≤ t.leafCount n) ?constant ?leaf ?combined hn
  case constant =>
    intro c
    rw [occurrences_of_isConstant (by cases c <;> rfl)]
    exact Nat.zero_le _
  case leaf =>
    intro n l code
    rw [occurrences_of_encodes (Vocabulary.encodes_iff.2 ⟨l, code⟩), leafCount,
      if_neg (Bool.eq_false_iff.1 (Node.not_isCombined_of_isLeaf code.isLeaf))]
  case combined =>
    intro n k l _ hk hl members
    rw [occurrences_combined hs hk hl, leafCount, if_pos (Node.isCombined_of_connective? hk),
      leafCounts_getD (hs.layered _ _ hl) (part.list?_of hl), total]
    exact foldr_add_le fun m hm => (members m hm).2.2

/-- **There is more effort to spend on a node than it bears leaves and there are nodes.** -/
theorem occurrences_add_lt_effort (hs : s.Valid v) (part : s.PartOf t) (hn : s.ValidNode v n) :
    s.occurrences n + UInt32.size < t.effort n := by
  have count := occurrences_le_leafCount hs part hn
  have enough : UInt32.size < outOfReach := by decide
  let width := t.size + t.leafCount n + 2
  have wide : t.leafCount n ≤ width * width * width * width := by
    calc t.leafCount n ≤ width := by omega
      _ ≤ width * width := Nat.le_mul_self width
      _ ≤ width * width * width := Nat.le_mul_of_pos_right _ (by omega)
      _ ≤ width * width * width * width := Nat.le_mul_of_pos_right _ (by omega)
  have effort : t.effort n = outOfReach + width * width * width * width := rfl
  omega

end Store

end Criteria
