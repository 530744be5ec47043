/-!
# Ascending lists

Finite sets over an ordered type, kept as strictly ascending lists: `contains`, `subset`,
`intersect`, `remove` and `merge` work on two of them in one walk, and `ofList` merges the elements
of any list into one. Each walk drops from one list what lies below the current element of the
other, so it looks at every element once and gives a definite answer on lists in any order.
-/

namespace Criteria

variable {α : Type} [LT α] [DecidableLT α] [DecidableEq α]

/-- Every element is below all that follow it. -/
def Ascending (l : List α) : Prop := l.Pairwise (· < ·)

instance (l : List α) : Decidable (Ascending l) :=
  inferInstanceAs (Decidable (l.Pairwise (· < ·)))

namespace Ascending

/-! ## Questions -/

/-- Whether `x` occurs, looking no further than the first element that is not below it. -/
def contains : List α → α → Bool
  | [], _ => false
  | y :: ys, x => if y < x then contains ys x else y = x

/-- Whether each element of the first list is met, in this order, on a walk along the second. -/
@[specialize]
def occursIn : List α → List α → Bool
  | [], _ => true
  | _ :: _, [] => false
  | x :: xs, y :: ys => if y < x then occursIn (x :: xs) ys else y = x && occursIn xs ys

/-- Whether every element of `small` is in `large`. -/
@[specialize]
def subset (small large : List α) : Bool :=
  small.length ≤ large.length && occursIn small large

/-! ## Set operations -/

/-- The elements from the first one that is not below `x` on. -/
def atLeast (x : α) (l : List α) : List α := l.dropWhile (· < x)

/-- The elements that are in both lists. -/
def intersect : List α → List α → List α
  | [], _ => []
  | x :: xs, b =>
    match atLeast x b with
    | [] => []
    | y :: ys => if y = x then x :: intersect xs ys else intersect xs (y :: ys)

/-- The elements of the first list that are not in the second. -/
def remove : List α → List α → List α
  | [], _ => []
  | x :: xs, b =>
    let rest := atLeast x b
    if rest.head? = some x then remove xs rest else x :: remove xs rest

/-- The elements that are in either list. -/
def merge : List α → List α → List α
  | [], b => b
  | x :: xs, b =>
    b.takeWhile (· < x) ++
      match atLeast x b with
      | [] => x :: xs
      | y :: ys => x :: if y = x then merge xs ys else merge xs (y :: ys)

theorem mem_merge {y : α} {a b : List α} : y ∈ merge a b ↔ y ∈ a ∨ y ∈ b := by
  induction a generalizing b with
  | nil => simp [merge]
  | cons x xs ih =>
    have split_b : y ∈ b ↔ y ∈ b.takeWhile (· < x) ∨ y ∈ atLeast x b := by
      rw [atLeast, ← List.mem_append, List.takeWhile_append_dropWhile]
    rw [merge, List.mem_append, split_b]
    cases atLeast x b with
    | nil => simp [or_comm]
    | cons z zs =>
      by_cases h : z = x <;> simp only [h, if_true, if_false, List.mem_cons, ih] <;> grind

/-! ## Sorting -/

/-- Merges each two neighbours into one list. -/
def mergePairs : List (List α) → List (List α)
  | a :: b :: rest => merge a b :: mergePairs rest
  | ls => ls

/-- Merges some lists into one: in pairs, as often as `rounds` says, and then one by one. -/
def mergeAll : Nat → List (List α) → List α
  | 0, ls => ls.foldr merge []
  | rounds + 1, ls => mergeAll rounds (mergePairs ls)

/-- The elements of a list in ascending order, each of them once. -/
def ofList (l : List α) : List α := mergeAll l.length (l.map fun x => [x])

theorem mem_mergePairs {y : α} (ls : List (List α)) :
    (∃ l ∈ mergePairs ls, y ∈ l) ↔ ∃ l ∈ ls, y ∈ l := by
  fun_induction mergePairs ls with
  | case1 a b rest ih => simp [mem_merge, ih, or_assoc]
  | case2 ls => rfl

theorem mem_mergeAll {y : α} (rounds : Nat) (ls : List (List α)) :
    y ∈ mergeAll rounds ls ↔ ∃ l ∈ ls, y ∈ l := by
  induction rounds generalizing ls with
  | zero =>
    rw [mergeAll]
    induction ls with
    | nil => simp
    | cons l ls ih => simp [mem_merge, ih]
  | succ rounds ih => rw [mergeAll, ih, mem_mergePairs]

theorem mem_ofList {y : α} {l : List α} : y ∈ ofList l ↔ y ∈ l := by
  rw [ofList, mem_mergeAll]
  constructor
  · rintro ⟨_, single, mem⟩
    obtain ⟨x, hx, rfl⟩ := List.mem_map.1 single
    exact List.mem_singleton.1 mem ▸ hx
  · exact fun h => ⟨[y], List.mem_map.2 ⟨y, h, rfl⟩, List.mem_singleton.2 rfl⟩

end Ascending

end Criteria
