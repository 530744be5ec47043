import Criteria.Fault
import Std.Data.HashMap
import Std.Data.HashSet

/-!
# Tables of member lists

What a store keeps: the list of each number, the number of each list, and how many lists are there.
The three say the same thing twice over and are kept in step by hand. Registering a list writes all
of them; a sweep takes the lists that it did not reach out of the first two one by one and settles
the count at the end.

`Coherent` says that they are in step: a list has a number just if it is the list of that number,
and the count counts the lists that are there. Empty tables are coherent, registering keeps them so
whether it fails or not (`Coherent.register`), and so does a sweep (`Coherent.sweep`), by an
invariant of its loop with one step lemma (`Released.step`).

A sweep keeps what `reachable` finds: the lists met from the roots by following combined members.
-/

namespace Criteria

namespace Store

/-- Member lists under their numbers, in tables that need not be coherent. -/
structure Raw where
  /-- The list of each number issued so far, nothing where it was swept away. -/
  entries : Array (Option (List Node))
  /-- The number of each list that is still there. -/
  index : Std.HashMap (List Node) Nat
  /-- How many lists are there. -/
  live : Nat
  /-- How many lists there may be before an automatic sweep. -/
  threshold : Nat

namespace Raw

variable {r t : Raw} {l m : List Node} {id j k : Nat} {kept : Std.HashSet Nat}

/-- No lists. -/
def empty (threshold : Nat) : Raw := ⟨#[], ∅, 0, threshold⟩

/-- How many numbers were issued. -/
def size (r : Raw) : Nat := r.entries.size

/-- The number of a list that is there. -/
def find? (r : Raw) (l : List Node) : Option Nat := r.index[l]?

/-- The list of a number. -/
def list? (r : Raw) (id : Nat) : Option (List Node) := r.entries[id]?.join

theorem lt_size_of_list? (r : Raw) (h : r.list? id = some l) : id < r.size := by
  rw [list?, Option.join_eq_some_iff, Array.getElem?_eq_some_iff] at h
  exact h.1

/-- The entries are the lists of the numbers in turn. -/
theorem toList_entries (r : Raw) : r.entries.toList = (List.range r.size).map r.list? := by
  apply List.ext_getElem
  · simp [size]
  · intro id h _
    simp [list?, Array.getElem?_eq_getElem (show id < r.entries.size from h)]

/-- The list of a number; a number without one was never issued or is reclaimed. -/
def lookup (r : Raw) (id : Nat) : Except Fault (List Node) :=
  match r.entries[id]? with
  | none => .error (.neverIssued id)
  | some none => .error (.reclaimed id)
  | some (some l) => .ok l

theorem lookup_eq_ok_iff : r.lookup id = .ok l ↔ r.list? id = some l := by
  rw [lookup, list?, Option.join_eq_some_iff]
  split
  · next eq => simp [eq]
  · next eq => simp [eq]
  · next eq => simp [eq]

theorem lookup_eq_neverIssued_iff : r.lookup id = .error (.neverIssued id) ↔ r.size ≤ id := by
  rw [lookup, size, ← Array.getElem?_eq_none_iff]
  split
  · next eq => simp [eq]
  · next eq => simp [eq]
  · next eq => simp [eq]

theorem lookup_eq_reclaimed (lt : id < r.size) (gone : r.list? id = none) :
    r.lookup id = .error (.reclaimed id) := by
  have there : r.entries[id]? = some r.entries[id] := Array.getElem?_eq_getElem lt
  rw [list?, there, Option.join_some] at gone
  rw [lookup, there, gone]

/-- What is found under a number depends on its list and on whether it was issued. -/
theorem lookup_congr (size : t.size = r.size) (list : t.list? id = r.list? id) :
    t.lookup id = r.lookup id := by
  by_cases lt : id < r.size
  · cases hl : r.list? id with
    | some l => rw [lookup_eq_ok_iff.2 hl, lookup_eq_ok_iff.2 (list.trans hl)]
    | none =>
      rw [lookup_eq_reclaimed lt hl, lookup_eq_reclaimed (size.symm ▸ lt) (list.trans hl)]
  · have never : r.lookup id = .error (.neverIssued id) :=
      lookup_eq_neverIssued_iff.2 (Nat.le_of_not_lt lt)
    rw [never, lookup_eq_neverIssued_iff, size]
    exact Nat.le_of_not_lt lt

/-- The lists that are there, counted one by one. -/
def count (r : Raw) : Nat := r.entries.countP Option.isSome

/-- The tables are in step. -/
structure Coherent (r : Raw) : Prop where
  /-- A list has a number just if it is the list of that number. -/
  find?_iff (l : List Node) (id : Nat) : r.find? l = some id ↔ r.list? id = some l
  live_eq : r.live = r.count

theorem list?_empty (threshold id : Nat) : (empty threshold).list? id = none := by
  simp [empty, list?]

theorem find?_empty (threshold : Nat) (l : List Node) : (empty threshold).find? l = none := by
  simp [empty, find?]

theorem coherent_empty (threshold : Nat) : (empty threshold).Coherent where
  find?_iff l id := by simp [find?_empty, list?_empty]
  live_eq := rfl

/-! ## Registering -/

/-- Issues the next number for a list. -/
def push (r : Raw) (l : List Node) : Raw :=
  { r with
    entries := r.entries.push (some l)
    index := r.index.insert l r.entries.size
    live := r.live + 1 }

/-- The number of a list: its old one if the list is there, else the next. -/
def register (l : List Node) : Attempt Raw Nat := do
  if l.contains .invalid then throw .invalidMember
  match (← get).find? l with
  | some id => return id
  | none =>
    let id := (← get).size
    if Node.maxNumber < id then throw (.numberTooLarge id)
    modify (·.push l)
    return id

theorem size_push : (r.push l).size = r.size + 1 := Array.size_push _

theorem list?_push : (r.push l).list? id = if id = r.size then some l else r.list? id := by
  show ((r.entries.push (some l))[id]?).join = _
  rw [Array.getElem?_push, ← size]
  by_cases last : id = r.size
  · rw [if_pos last, if_pos last, Option.join_some]
  · rw [if_neg last, if_neg last, list?]

theorem find?_push : (r.push l).find? m = if m = l then some r.size else r.find? m := by
  show (r.index.insert l r.entries.size)[m]? = _
  rw [Std.HashMap.getElem?_insert]
  by_cases same : m = l
  · rw [if_pos (beq_iff_eq.2 same.symm), if_pos same, size]
  · rw [if_neg (mt beq_iff_eq.1 (Ne.symm same)), if_neg same, find?]

theorem Coherent.push (h : r.Coherent) (new : r.find? l = none) : (r.push l).Coherent where
  find?_iff m id := by
    rw [find?_push, list?_push]
    by_cases same : m = l
    · subst same
      have absent : r.list? id ≠ some m := fun there => by simp [(h.find?_iff m id).2 there] at new
      by_cases last : id = r.size
      · simp [last]
      · simp [last, absent, Ne.symm last]
    · by_cases last : id = r.size
      · have absent : r.find? m ≠ some r.size := fun there =>
          Nat.lt_irrefl _ (r.lt_size_of_list? ((h.find?_iff m _).1 there))
        simp [same, last, absent, Ne.symm same]
      · simp [same, last, h.find?_iff]
  live_eq := by
    show r.live + 1 = (r.entries.push (some l)).countP Option.isSome
    rw [Array.countP_push_of_pos rfl, h.live_eq, count]

/-- The outcomes of registering a list, each with the tables that are left. -/
theorem register_eq (l : List Node) (r : Raw) : register l r =
    if l.contains .invalid then .error .invalidMember r
    else match r.find? l with
    | some id => .ok id r
    | none =>
      if Node.maxNumber < r.size then .error (.numberTooLarge r.size) r
      else .ok r.size (r.push l) := by
  by_cases invalid : l.contains .invalid = true
  · rw [register, if_pos invalid, if_pos invalid]
    rfl
  simp only [register, invalid, Bool.false_eq_true, if_false, Attempt.get_bind]
  cases r.find? l with
  | some id => rfl
  | none =>
    simp only [Attempt.get_bind]
    by_cases full : Node.maxNumber < r.size
    · simp only [full, if_true]
      rfl
    · simp only [full, if_false]
      rfl

theorem register_of_invalid (hl : l.contains .invalid = true) :
    register l r = .error .invalidMember r := by
  rw [register_eq, if_pos hl]

/-- A list that is there keeps its number. -/
theorem register_of_find? (hl : l.contains .invalid = false) (found : r.find? l = some id) :
    register l r = .ok id r := by
  rw [register_eq, if_neg (Bool.eq_false_iff.1 hl), found]

/-- A list that is not there gets the next number if there is one. -/
theorem register_of_new (hl : l.contains .invalid = false) (new : r.find? l = none) :
    register l r = if r.size ≤ Node.maxNumber then .ok r.size (r.push l)
      else .error (.numberTooLarge r.size) r := by
  rw [register_eq, if_neg (Bool.eq_false_iff.1 hl), new]
  by_cases room : r.size ≤ Node.maxNumber
  · simp [room]
  · simp [room, Nat.lt_of_not_le room]

/-- A list that is registered was there or is pushed. -/
theorem register_eq_ok (eq : register l r = .ok id t) :
    r.find? l = some id ∧ t = r ∨
      r.find? l = none ∧ r.size ≤ Node.maxNumber ∧ id = r.size ∧ t = r.push l := by
  cases hl : l.contains .invalid with
  | true =>
    rw [register_of_invalid hl] at eq
    cases eq
  | false =>
    cases found : r.find? l with
    | some id' =>
      rw [register_of_find? hl found] at eq
      cases eq
      exact .inl ⟨rfl, rfl⟩
    | none =>
      rw [register_of_new hl found] at eq
      split at eq
      · next room =>
        cases eq
        exact .inr ⟨rfl, room, rfl, rfl⟩
      · cases eq

/-- A list that cannot be registered leaves the tables as they were. -/
theorem register_eq_error {fault : Fault} (eq : register l r = .error fault t) :
    t = r ∧ (l.contains .invalid = true ∨
      Node.maxNumber < r.size ∧ fault = .numberTooLarge r.size) := by
  cases hl : l.contains .invalid with
  | true =>
    rw [register_of_invalid hl] at eq
    cases eq
    exact ⟨rfl, .inl rfl⟩
  | false =>
    cases found : r.find? l with
    | some id' =>
      rw [register_of_find? hl found] at eq
      cases eq
    | none =>
      rw [register_of_new hl found] at eq
      split at eq
      · cases eq
      · next full =>
        cases eq
        exact ⟨rfl, .inr ⟨Nat.lt_of_not_le full, rfl⟩⟩

theorem Coherent.register (h : r.Coherent) (eq : register l r = .ok id t) : t.Coherent := by
  rcases register_eq_ok eq with ⟨-, rfl⟩ | ⟨new, -, -, rfl⟩
  · exact h
  · exact h.push new

/-! ## Reaching -/

/-- A stronger test that fails on some element counts fewer. -/
theorem countP_lt {α : Type} {p q : α → Bool} (imp : ∀ x, p x = true → q x = true) {l : List α}
    {a : α} (mem : a ∈ l) (hp : p a = false) (hq : q a = true) : l.countP p < l.countP q := by
  induction l with
  | nil => simp at mem
  | cons x xs ih =>
    rw [List.countP_cons, List.countP_cons]
    have le := List.countP_mono_left (l := xs) fun x _ => imp x
    rcases List.mem_cons.1 mem with rfl | mem
    · simp [hp, hq]; omega
    · have := ih mem
      have := imp x
      cases hpx : p x <;> simp_all
      omega

/-- How many of the numbers issued so far are not yet seen. -/
def unseen (r : Raw) (seen : Std.HashSet Nat) : Nat :=
  (List.range r.size).countP (fun id => !seen.contains id)

theorem unseen_insert_le (r : Raw) (seen : Std.HashSet Nat) (id : Nat) :
    r.unseen (seen.insert id) ≤ r.unseen seen := by
  refine List.countP_mono_left fun x _ h => ?_
  simp only [Std.HashSet.contains_insert, Bool.not_or, Bool.and_eq_true] at h
  exact h.2

theorem unseen_insert_lt (r : Raw) {seen : Std.HashSet Nat} (new : id ∉ seen)
    (issued : id < r.size) : r.unseen (seen.insert id) < r.unseen seen := by
  refine countP_lt (fun x h => ?_) (List.mem_range.2 issued) (by simp) (by simpa using new)
  simp only [Std.HashSet.contains_insert, Bool.not_or, Bool.and_eq_true] at h
  exact h.2

/-- The combined members of the list of a number, none for a number without a list. -/
def next (r : Raw) (id : Nat) : List Node := ((r.list? id).getD []).filter (·.isCombined)

theorem mem_next {n : Node} :
    n ∈ r.next id ↔ ∃ l, r.list? id = some l ∧ n ∈ l ∧ n.isCombined = true := by
  rw [next, List.mem_filter]
  cases r.list? id with
  | none => simp
  | some l => simp

theorem next_eq_nil (h : r.list? id = none) : r.next id = [] := by
  rw [next, h]
  rfl

/-- The numbers met from the nodes of a queue by following combined members, added to those seen. A
number without a list is met as well but leads nowhere. The queue is read from `front`, and what is
put behind it lies on `back`, the last one first. -/
def reach (r : Raw) (seen : Std.HashSet Nat) (front back : List Node) : Std.HashSet Nat :=
  match front, back with
  | [], [] => seen
  | [], n :: back => r.reach seen (n :: back).reverse []
  | n :: front, back =>
    if n.isCombined then
      if n.number ∈ seen then r.reach seen front back
      else r.reach (seen.insert n.number) front ((r.next n.number).reverse ++ back)
    else r.reach seen front back
termination_by (r.unseen seen, front.length + 2 * back.length)
decreasing_by
  · exact Prod.Lex.right _ (by simp)
  · exact Prod.Lex.right _ (by simp)
  · next new =>
    cases found : r.list? n.number with
    | some l => exact Prod.Lex.left _ _ (r.unseen_insert_lt new (r.lt_size_of_list? found))
    | none =>
      rcases Nat.lt_or_eq_of_le (r.unseen_insert_le seen n.number) with lt | eq
      · exact Prod.Lex.left _ _ lt
      · rw [eq, next_eq_nil found]
        exact Prod.Lex.right _ (by simp)
  · exact Prod.Lex.right _ (by simp)

/-- The numbers met from some roots by following combined members. -/
def reachable (r : Raw) (roots : List Node) : Std.HashSet Nat := r.reach ∅ roots []

/-! ## Sweeping -/

/-- Takes a list out of both tables. -/
def drop (r : Raw) (id : Nat) (l : List Node) : Raw :=
  { r with entries := r.entries.setIfInBounds id none, index := r.index.erase l }

/-- Drops the list of a number that is not kept, and counts it. -/
def release (kept : Std.HashSet Nat) (x : Nat × Raw) (id : Nat) : Nat × Raw :=
  match x.2.list? id with
  | some l => if kept.contains id then x else (x.1 + 1, x.2.drop id l)
  | none => x

/-- Drops every list that cannot be reached from the roots, and tells how many. -/
def sweep (r : Raw) (roots : List Node) : Nat × Raw :=
  let (released, r) := (List.range r.size).foldl (release (r.reachable roots)) (0, r)
  (released, { r with live := r.live - released })

/-- Sweeps if there are more than `threshold` lists, and tells whether it did. -/
def sweepAbove (r : Raw) (roots : List Node) (threshold : Nat) : Bool × Raw :=
  if r.live ≤ threshold then (false, r) else (true, (r.sweep roots).2)

theorem size_drop : (r.drop id l).size = r.size := Array.size_setIfInBounds

theorem list?_drop : (r.drop id l).list? j = if j = id then none else r.list? j := by
  show ((r.entries.setIfInBounds id none)[j]?).join = _
  rw [Array.getElem?_setIfInBounds]
  by_cases same : j = id
  · subst same
    by_cases lt : j < r.entries.size
    · simp [lt]
    · simp [lt]
  · rw [if_neg (Ne.symm same), if_neg same, list?]

theorem find?_drop : (r.drop id l).find? m = if m = l then none else r.find? m := by
  show (r.index.erase l)[m]? = _
  rw [Std.HashMap.getElem?_erase]
  by_cases same : m = l
  · rw [if_pos (beq_iff_eq.2 same.symm), if_pos same]
  · rw [if_neg (mt beq_iff_eq.1 (Ne.symm same)), if_neg same, find?]

theorem count_drop (there : r.list? id = some l) : (r.drop id l).count + 1 = r.count := by
  have lt : id < r.entries.size := r.lt_size_of_list? there
  have entry : r.entries[id] = some l := by
    rw [list?, Array.getElem?_eq_getElem lt, Option.join_some] at there
    exact there
  have pos : 0 < r.entries.countP Option.isSome :=
    Array.countP_pos_iff.2 ⟨some l, entry ▸ Array.getElem_mem lt, rfl⟩
  show (r.entries.setIfInBounds id none).countP Option.isSome + 1 = _
  rw [Array.setIfInBounds_def, dif_pos lt, Array.countP_set, entry, count]
  simp
  omega

/-- A list that is dropped loses its number, and no other list does. -/
theorem find?_drop_iff (inverse : ∀ l id, r.find? l = some id ↔ r.list? id = some l)
    (there : r.list? id = some l) (m : List Node) (j : Nat) :
    (r.drop id l).find? m = some j ↔ (r.drop id l).list? j = some m := by
  rw [find?_drop, list?_drop]
  by_cases number : j = id
  · subst number
    by_cases list : m = l
    · simp [list]
    · simp [list, inverse, there, Ne.symm list]
  · by_cases list : m = l
    · subst list
      have found := (inverse m id).2 there
      have absent : r.list? j ≠ some m := fun h =>
        number (Option.some.inj (((inverse m j).2 h).symm.trans found))
      simp [number, absent]
    · simp [number, list, inverse]

/-- What the loop of a sweep leaves of `r` after `k` numbers: the tables `x.2`, and `x.1` lists
released. -/
structure Released (kept : Std.HashSet Nat) (r : Raw) (k : Nat) (x : Nat × Raw) : Prop where
  size_eq : x.2.size = r.size
  list?_eq (id : Nat) : x.2.list? id = if id < k ∧ id ∉ kept then none else r.list? id
  find?_iff (l : List Node) (id : Nat) : x.2.find? l = some id ↔ x.2.list? id = some l
  count_eq : x.1 + x.2.count = r.count
  live_eq : x.2.live = r.live
  threshold_eq : x.2.threshold = r.threshold

namespace Released

variable {x : Nat × Raw}

theorem start (h : r.Coherent) : Released kept r 0 (0, r) where
  size_eq := rfl
  list?_eq id := by simp
  find?_iff := h.find?_iff
  count_eq := Nat.zero_add _
  live_eq := rfl
  threshold_eq := rfl

/-- A number that is kept or has no list is passed over. -/
theorem skip (h : Released kept r k x) (same : k ∉ kept → x.2.list? k = none) :
    Released kept r (k + 1) x where
  size_eq := h.size_eq
  list?_eq id := by
    by_cases here : id = k
    · subst here
      by_cases keep : id ∈ kept
      · simp [h.list?_eq, keep]
      · simp [same keep, keep]
    · have before : id < k + 1 ↔ id < k := by omega
      rw [h.list?_eq]
      simp only [before]
  find?_iff := h.find?_iff
  count_eq := h.count_eq
  live_eq := h.live_eq
  threshold_eq := h.threshold_eq

/-- A list that is not kept is dropped. -/
theorem drop (h : Released kept r k x) (there : x.2.list? k = some l) (lost : k ∉ kept) :
    Released kept r (k + 1) (x.1 + 1, x.2.drop k l) where
  size_eq := size_drop.trans h.size_eq
  list?_eq id := by
    rw [list?_drop, h.list?_eq]
    by_cases here : id = k
    · simp [here, lost]
    · have before : id < k + 1 ↔ id < k := by omega
      simp only [before, if_neg here]
  find?_iff := find?_drop_iff h.find?_iff there
  count_eq := by
    have all := h.count_eq
    have one := count_drop there
    show x.1 + 1 + (x.2.drop k l).count = _
    omega
  live_eq := h.live_eq
  threshold_eq := h.threshold_eq

theorem step (h : Released kept r k x) : Released kept r (k + 1) (release kept x k) := by
  cases found : x.2.list? k with
  | none =>
    rw [release, found]
    exact h.skip fun _ => found
  | some l =>
    simp only [release, found]
    by_cases keep : k ∈ kept
    · rw [if_pos (Std.HashSet.contains_iff_mem.2 keep)]
      exact h.skip (absurd keep)
    · rw [if_neg (mt Std.HashSet.contains_iff_mem.1 keep)]
      exact h.drop found keep

/-- After the first `k` numbers, by induction on `k`. -/
theorem run (h : r.Coherent) (kept : Std.HashSet Nat) (k : Nat) :
    Released kept r k ((List.range k).foldl (release kept) (0, r)) := by
  induction k with
  | zero => exact start h
  | succ k ih =>
    rw [List.range_succ, List.foldl_append]
    exact ih.step

/-- The count is settled at the end. -/
theorem settle (h : Released kept r k x) (live : r.live = r.count) :
    { x.2 with live := x.2.live - x.1 }.Coherent where
  find?_iff := h.find?_iff
  live_eq := by
    have all := h.count_eq
    have before := h.live_eq
    show x.2.live - x.1 = x.2.count
    omega

end Released

/-- What a sweep leaves of coherent tables. -/
theorem Coherent.released (h : r.Coherent) (roots : List Node) :
    ∃ x, Released (r.reachable roots) r r.size x ∧
      r.sweep roots = (x.1, { x.2 with live := x.2.live - x.1 }) :=
  ⟨_, Released.run h _ _, rfl⟩

theorem Coherent.sweep (h : r.Coherent) (roots : List Node) : (r.sweep roots).2.Coherent := by
  obtain ⟨x, released, eq⟩ := h.released roots
  rw [eq]
  exact released.settle h.live_eq

theorem Coherent.size_sweep (h : r.Coherent) (roots : List Node) :
    (r.sweep roots).2.size = r.size := by
  obtain ⟨x, released, eq⟩ := h.released roots
  rw [eq]
  exact released.size_eq

theorem Coherent.list?_sweep (h : r.Coherent) (roots : List Node) (id : Nat) :
    (r.sweep roots).2.list? id = if id ∈ r.reachable roots then r.list? id else none := by
  obtain ⟨x, released, eq⟩ := h.released roots
  rw [eq]
  refine (released.list?_eq id).trans ?_
  by_cases reached : id ∈ r.reachable roots
  · simp [reached]
  · by_cases lt : id < r.size
    · simp [reached, lt]
    · have absent : r.list? id = none :=
        Option.eq_none_iff_forall_ne_some.2 fun l hl => lt (r.lt_size_of_list? hl)
      simp [reached, absent]

/-- The lists that are released and those that are left are all. -/
theorem Coherent.released_add_live (h : r.Coherent) (roots : List Node) :
    (r.sweep roots).1 + (r.sweep roots).2.live = r.live := by
  obtain ⟨x, released, eq⟩ := h.released roots
  have all := released.count_eq
  have before := released.live_eq
  have count := h.live_eq
  rw [eq]
  show x.1 + (x.2.live - x.1) = r.live
  omega

theorem Coherent.threshold_sweep (h : r.Coherent) (roots : List Node) :
    (r.sweep roots).2.threshold = r.threshold := by
  obtain ⟨x, released, eq⟩ := h.released roots
  rw [eq]
  exact released.threshold_eq

theorem Coherent.sweepAbove (h : r.Coherent) (roots : List Node) (threshold : Nat) :
    (r.sweepAbove roots threshold).2.Coherent := by
  rw [Raw.sweepAbove]
  by_cases few : r.live ≤ threshold
  · rw [if_pos few]
    exact h
  · rw [if_neg few]
    exact h.sweep roots

end Raw

end Store

end Criteria
