import Criteria.Consolidation
import Criteria.Translator

/-!
# Forests

Conditions in coded form: a translator for the leaves, a store for the member lists, and the nodes
that are wanted, the *roots*. An expression is planted by `encode`, which builds its node from the
leaves up, and read back by `express`. Building changes neither roots nor vocabulary; only what can
be reached from the roots outlives a sweep.
-/

namespace Criteria

/-- Coded conditions that share one vocabulary and one store. -/
structure Forest where
  translator : Translator
  store : Store
  roots : List Node
  deriving Inhabited

namespace Forest

/-- A forest over a vocabulary, without any roots. -/
def ofVocabulary (v : Vocabulary) : Forest :=
  ⟨.ofVocabulary v, .empty Store.defaultThreshold, []⟩

/-- The words that the leaves may mention. -/
def vocabulary (f : Forest) : Vocabulary := f.translator.vocabulary

/-- The first root. -/
def root (f : Forest) : Except Fault Node :=
  match f.roots with
  | n :: _ => .ok n
  | [] => .error .noRoot

/-- Lets the translator work. -/
def translate {α : Type} (x : Attempt Translator α) : Attempt Forest α := fun ⟨t, store, roots⟩ =>
  match x t with
  | .ok a t => .ok a ⟨t, store, roots⟩
  | .error fault t => .error fault ⟨t, store, roots⟩

/-- Builds on the store. -/
def build {α : Type} (x : Build α) : Attempt Forest α := fun ⟨t, store, roots⟩ =>
  match x store with
  | .ok a store => .ok a ⟨t, store, roots⟩
  | .error fault store => .error fault ⟨t, store, roots⟩

/-! ## Planting -/

mutual
/-- The node of an expression. -/
def encode : Expression → Attempt Forest Node
  | .constant c => translate (Translator.encode (.constant c))
  | .leaf l => translate (Translator.encode (.leaf l))
  | .combined k members => do
    let ms ← encodeAll members
    build (.combine k ms)

/-- The nodes of some expressions in turn. -/
def encodeAll : List Expression → Attempt Forest (List Node)
  | [] => return []
  | e :: es => do
    let n ← encode e
    return n :: (← encodeAll es)
end

/-- Runs a computation on a forest that is of no use if it fails. -/
def complete {α : Type} (x : Attempt Forest α) (f : Forest) : Except Fault (α × Forest) :=
  match x f with
  | .ok a f => .ok (a, f)
  | .error fault _ => .error fault

/-- The forest of one expression, over the words that the expression mentions. -/
def ofExpression (e : Expression) : Except Fault Forest := do
  let (n, f) ← complete (encode e) (.ofVocabulary (← Vocabulary.ofExpression e))
  return { f with roots := [n] }

/-- The forest of some expressions, over all words that they mention. -/
def ofExpressions (es : List Expression) : Except Fault Forest := do
  let (ns, f) ← complete (encodeAll es) (.ofVocabulary (← Vocabulary.ofExpressions es))
  return { f with roots := ns }

/-! ## Reading back -/

/-- The expression of a node that nests less deep than `fuel`. -/
def expressWithin (s : Store) : Nat → Node → Attempt Translator Expression
  | 0, n => throw (.cyclic n)
  | fuel + 1, n =>
    match n.connective? with
    | none => Translator.decode n
    | some k => do
      let ms ← ofExcept (s.members n)
      return .join k (← ms.mapM (expressWithin s fuel))

/-- The expression of a node. -/
def express (n : Node) : Attempt Forest Expression := fun f =>
  translate (expressWithin f.store (f.store.size + 2) n) f

/-- The expression of the first root. -/
def expressRoot : Attempt Forest Expression := do
  express (← ofExcept (← get).root)

/-- The expressions of all roots. -/
def expressRoots : Attempt Forest (List Expression) := do
  (← get).roots.mapM express

/-! ## Leaves and depth -/

/-- The codes of the leaves and constants below a node that nests less deep than `fuel`. They come
in the order in which a loop takes them off a stack on which it puts the members of each combined
node: the last member first, and all that is below it before the member in front of it. As in such
a loop, a list that is met twice is gone through twice, and the first fault that is met is the
answer. -/
def leavesWithin (s : Store) : Nat → Node → Except Fault (List Node)
  | 0, n => .error (.cyclic n)
  | fuel + 1, n =>
    if n.isCombined then do
      return (← (← s.members n).reverse.mapM (leavesWithin s fuel)).flatten
    else if n.isInvalid then .error .invalidNode
    else .ok [n]

/-- The codes of the leaves and constants below a node, in order and each of them once. -/
def leaves (f : Forest) (n : Node) : Except Fault (List Node) := do
  return Ascending.ofList (← leavesWithin f.store (f.store.size + 2) n)

/-- How many combined nodes lie above the deepest leaf of a node that nests less deep than
`fuel`. -/
def depthWithin (s : Store) : Nat → Node → Except Fault Nat
  | 0, n => .error (.cyclic n)
  | fuel + 1, n =>
    if n.isCombined then do
      return (← (← s.members n).mapM (depthWithin s fuel)).foldr max 0 + 1
    else .ok 0

/-- How many combined nodes lie above the deepest leaf of a node. -/
def depth (f : Forest) (n : Node) : Except Fault Nat := depthWithin f.store (f.store.size + 2) n

/-! ## Sweeping -/

/-- Drops every list that no root needs, and tells how many. -/
def sweep (f : Forest) : Nat × Forest :=
  let (released, store) := f.store.sweep f.roots
  (released, { f with store })

/-- Sweeps if there are more than `threshold` lists, and tells whether it did. -/
def sweepAbove (threshold : Nat) (f : Forest) : Bool × Forest :=
  let (swept, store) := f.store.sweepAbove f.roots threshold
  (swept, { f with store })

end Forest

end Criteria
