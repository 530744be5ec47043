import Criteria.Simplify
import Criteria.Validity

/-!
# Sessions

The life of a forest: it is made, over some words, from expressions or by merging two others, and
is then asked for one thing after another. A request that fails leaves the forest with whatever was
added before the failure.

Nodes may be handed in as long as they are *usable*: the constants, the leaves of the vocabulary,
and the combined nodes that were returned before or are in the forest, unless a sweep has taken
their lists away. What is usable in one forest means nothing in another, except that a merged
forest keeps the nodes of the first of the two.
-/

namespace Criteria

/-! ## Requests -/

/-- The passes that can be asked for. -/
inductive Rewriting where
  | prune
  | distribute (cleanup : Nat)
  | factor

/-- What a pass makes of a node. -/
def Rewriting.pass : Rewriting → Node → Pass Node
  | prune => Pass.prune
  | distribute cleanup => Pass.distribute cleanup
  | factor => Pass.factor

/-- What a forest can be asked for. -/
inductive Request where
  | plant (e : Expression)
  | combine (k : Connective) (members : List Node)
  | complement (n : Node)
  | knownCheck (n : Node)
  | express (n : Node)
  | rewrite (x : Rewriting) (n : Node) (budget : Budget)
  | rewriteRoots (x : Rewriting) (budget : Budget)
  | simplify (cleanup housekeeping : Nat) (budget : Budget)
  | setRoots (roots : List Node)
  | addRoot (n : Node)
  | sweep
  | sweepAbove (threshold : Nat)

/-- The nodes that are returned, none after a failure, and the forest that is left. -/
structure Reply where
  nodes : List Node
  forest : Forest

/-- The reply that the outcome of a computation amounts to. -/
def Reply.of {ε σ α : Type} (forest : σ → Forest) (nodes : α → List Node) :
    EStateM.Result ε σ α → Reply
  | .ok a s => ⟨nodes a, forest s⟩
  | .error _ s => ⟨[], forest s⟩

namespace Request

/-- The nodes that are handed in. -/
def nodes : Request → List Node
  | combine _ members => members
  | complement n | knownCheck n | express n | rewrite _ n _ | addRoot n => [n]
  | setRoots roots => roots
  | plant _ | rewriteRoots _ _ | simplify _ _ _ | sweep | sweepAbove _ => []

/-- Does what is asked for. -/
def perform (f : Forest) : Request → Reply
  | plant e => .of id ([·]) (Forest.encode e f)
  | combine k members => .of id ([·]) (Forest.build (.combine k members) f)
  | complement n => .of id ([·]) (Forest.build (Build.complement n) f)
  | knownCheck n => .of id ([·]) (Forest.build (Build.knownCheck n) f)
  | express n => .of id (fun _ => []) (Forest.express n f)
  | rewrite x n budget => .of Prod.fst ([·]) (Forest.run (x.pass n) (f, budget))
  | rewriteRoots x budget => .of Prod.fst (fun _ => []) (Forest.mapRoots x.pass (f, budget))
  | simplify cleanup housekeeping budget =>
    .of Prod.fst (fun _ => []) (Forest.simplify cleanup housekeeping (f, budget))
  | setRoots roots => ⟨[], { f with roots }⟩
  | addRoot n => ⟨[], { f with roots := f.roots ++ [n] }⟩
  | sweep => ⟨[], f.sweep.2⟩
  | sweepAbove threshold => ⟨[], (f.sweepAbove threshold).2⟩

end Request

/-! ## Sessions -/

/-- A forest and the nodes that it has returned. -/
structure Session where
  forest : Forest
  /-- The nodes that the last request returned. -/
  last : List Node
  /-- The nodes that were returned before. -/
  earlier : List Node

/-- Whether a node is a root or a member of a list that is there. -/
def Forest.Contains (f : Forest) (n : Node) : Prop :=
  n ∈ f.roots ∨ ∃ id l, f.store.list? id = some l ∧ n ∈ l

namespace Session

/-- The session of a forest that has returned nothing. -/
def start (f : Forest) : Session := ⟨f, [], []⟩

/-- The session after a reply. -/
def next (x : Session) (y : Reply) : Session := ⟨y.forest, y.nodes, x.last ++ x.earlier⟩

/-- The nodes that may be handed in. -/
inductive Usable (x : Session) : Node → Prop
  | constant {n : Node} : n.isConstant = true → Usable x n
  | leaf {n : Node} : x.forest.vocabulary.Encodes n → Usable x n
  | combined {n : Node} {l : List Node} : n.isCombined = true →
      x.forest.store.list? n.number = some l →
      n ∈ x.last ∨ n ∈ x.earlier ∨ x.forest.Contains n → Usable x n

/-- The sessions in which only usable nodes were handed in. The second of two forests is only read,
and reading back leaves is a request, so its session needs no step of its own. -/
inductive Reached : Session → Prop
  | ofVocabulary (v : Vocabulary) : Reached (start (.ofVocabulary v))
  | ofExpression {e : Expression} {f : Forest} : Forest.ofExpression e = .ok f → Reached (start f)
  | ofExpressions {es : List Expression} {f : Forest} :
      Forest.ofExpressions es = .ok f → Reached (start f)
  /-- A forest over the words of another, and with what its translator remembers. -/
  | ofTranslator {x : Session} : Reached x →
      Reached (start ⟨x.forest.translator, .empty Store.defaultThreshold, []⟩)
  | merge {x y : Session} {f : Forest} : Reached x → Reached y →
      x.forest.merge y.forest = .ok f → Reached (x.next ⟨[], f⟩)
  | recode {x y : Session} {n : Node} : Reached x → Reached y → y.Usable n →
      Reached (x.next (.of id ([·]) (Forest.recode y.forest n x.forest)))
  | perform {x : Session} (request : Request) : Reached x → (∀ n ∈ request.nodes, x.Usable n) →
      Reached (x.next (request.perform x.forest))

end Session

end Criteria
