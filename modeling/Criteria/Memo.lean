import Std.Data.HashMap

/-!
# Memos

A finite map that remembers results and counts how often a question was answered from it.
-/

namespace Criteria

/-- Remembered results and the number of questions that did and did not find one. -/
structure Memo (κ υ : Type) [BEq κ] [Hashable κ] where
  results : Std.HashMap κ υ
  hits : Nat
  misses : Nat

namespace Memo

variable {κ υ : Type} [BEq κ] [Hashable κ]

/-- The memo that remembers nothing and was asked nothing. -/
def empty : Memo κ υ := ⟨∅, 0, 0⟩

instance : Inhabited (Memo κ υ) := ⟨empty⟩

/-- How many results are remembered. -/
def size (m : Memo κ υ) : Nat := m.results.size

/-- The result under a key, and the memo with the question counted. -/
def ask (m : Memo κ υ) (key : κ) : Option υ × Memo κ υ :=
  match m with
  | ⟨results, hits, misses⟩ =>
    match results[key]? with
    | some result => (some result, ⟨results, hits + 1, misses⟩)
    | none => (none, ⟨results, hits, misses + 1⟩)

/-- The memo that remembers `result` under `key`, in the place of any earlier one. -/
def insert (m : Memo κ υ) (key : κ) (result : υ) : Memo κ υ :=
  { m with results := m.results.insert key result }

end Memo

end Criteria
