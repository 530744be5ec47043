import Criteria.Forest

/-!
# Looking into forests

Text for people: counts, one node with its members, all nodes below a root from the top down, and
a whole forest. Leaves are shown as they are written, members of combined nodes by code.
-/

namespace Criteria

namespace Forest

/-! ## Counts -/

/-- How much a forest holds and how often its translator was asked. -/
structure Counts where
  roots : Nat
  live : Nat
  issued : Nat
  hits : Nat
  misses : Nat

/-- The counts as they are printed. -/
def Counts.text (c : Counts) : String :=
  "roots=" ++ toString c.roots ++ " arrays=" ++ toString c.live ++ "/" ++ toString c.issued
    ++ " codec cache hits=" ++ toString c.hits ++ " misses=" ++ toString c.misses

/-- The counts of a forest. -/
def counts (f : Forest) : Counts where
  roots := f.roots.length
  live := f.store.live
  issued := f.store.size
  hits := f.translator.hits
  misses := f.translator.misses

/-! ## Nodes -/

/-- A node in the place of which only a fault can be shown. -/
def faultText (n : Node) (fault : Fault) : String := "<" ++ n.text ++ ": " ++ fault.message ++ ">"

/-- A combined node with the codes of its members. -/
def membersText (k : Connective) (ms : List Node) : String :=
  k.text ++ "(" ++ ", ".intercalate (ms.map (·.text)) ++ ")"

/-- A node as it is shown. -/
def display (n : Node) : Attempt Forest String := fun f =>
  if n.isInvalid || n.isConstant then .ok n.text f
  else match n.connective? with
  | some k =>
    match f.store.members n with
    | .ok ms => .ok (membersText k ms) f
    | .error fault => .ok (faultText n fault) f
  | none =>
    match translate (Translator.decode n) f with
    | .ok e f => .ok e.text f
    | .error fault f => .ok (faultText n fault) f

/-- What there is to say about a node. -/
structure Sight where
  node : Node
  connective? : Option Connective
  shown : String
  members : List Node
  depth : Nat

/-- The sight as it is printed, with the depth of a combined node. -/
def Sight.text (v : Sight) : String :=
  let line := v.node.text ++ " := " ++ v.shown
  match v.connective? with
  | none => line
  | some _ => line ++ " (depth=" ++ toString v.depth ++ ")"

/-- Looks at a node. -/
def look (n : Node) : Attempt Forest Sight := do
  let connective? ← ofExcept n.kind
  let members ← if n.isCombined then ofExcept ((← get).store.members n) else pure []
  let shown ← display n
  let depth ← ofExcept ((← get).depth n)
  return ⟨n, connective?, shown, members, depth⟩

/-! ## Panoramas -/

/-- All nodes below a root, from the top down. -/
structure Panorama where
  root : Node
  sights : List Sight

/-- The panorama as it is printed, one line for each node. -/
def Panorama.text (p : Panorama) : String :=
  "Tree (root = " ++ p.root.text ++ ", nodes = " ++ toString p.sights.length ++ "):\n"
    ++ String.join (p.sights.map fun v => "  " ++ v.text ++ "\n")

/-- The most nodes that can come up below a root: each list may be met as an AND and as an OR. -/
def span (f : Forest) : Nat :=
  2 * f.store.entries.foldl (fun total entry => total + (entry.getD []).length) 0 + 1

/-- Looks at the nodes of a queue and at what comes up behind them, each node once and at most
`fuel` times. -/
def lookAll : Nat → List Node → List Node → Attempt Forest (List Sight)
  | 0, _, _ => return []
  | _, _, [] => return []
  | fuel + 1, seen, n :: queue => do
    if seen.contains n then lookAll fuel seen queue
    else
      let v ← look n
      return v :: (← lookAll fuel (n :: seen) (queue ++ v.members))

/-- Looks at all nodes below a root. -/
def lookBelow (root : Node) : Attempt Forest Panorama := do
  return ⟨root, ← lookAll (← get).span [] [root]⟩

/-- The counts and the panorama of each root. -/
def describe : Attempt Forest String := do
  let counts := (← get).counts
  let panoramas ← (← get).roots.mapM lookBelow
  return counts.text ++ "\n" ++ String.join (panoramas.map (·.text))

end Forest

end Criteria
