import Criteria.Pruning

/-!
# Factoring

Takes common members of ANDs out of an OR: `(a AND b) OR (a AND c) OR d` becomes
`(a AND (b OR c)) OR d`. What is taken out is an *overlap*, the common members of two of the ANDs,
and of all overlaps the one that most of them contain; among those the longest, and then the first
in lexicographic order. Overlaps are taken out until no two ANDs have a common member, and what is
left is pruned.
-/

namespace Criteria

namespace Pass

/-! ## Overlaps -/

/-- The member lists of those nodes that are ANDs. -/
def andLists (s : Store) : List Node → Except Fault (List (List Node))
  | [] => .ok []
  | n :: rest => do
    if n.isAnd then
      let l ← s.members n
      return l :: (← andLists s rest)
    else andLists s rest

/-- What a list has in common with each of some others, if anything. -/
def overlapsWith (l : List Node) : List (List Node) → Pass (List (List Node))
  | [] => return []
  | other :: rest => do
    check
    let common := Ascending.intersect l other
    let found ← overlapsWith l rest
    return if common.isEmpty then found else common :: found

/-- What each two of some lists have in common, if anything. -/
def overlaps : List (List Node) → Pass (List (List Node))
  | [] => return []
  | l :: rest => do
    let found ← overlapsWith l rest
    return found ++ (← overlaps rest)

/-- An overlap and the number of overlaps that contain it. -/
structure Candidate where
  votes : Nat
  members : List Node

/-- Whether the first candidate is contained in more overlaps, or in as many and is longer. -/
def Candidate.better (a b : Candidate) : Bool :=
  b.votes < a.votes || a.votes = b.votes && b.members.length < a.members.length

/-- The better of a candidate and the best one so far, which stays on a tie. -/
def Candidate.orBest (c : Candidate) : Option Candidate → Candidate
  | none => c
  | some best => if c.better best then c else best

/-- The best of some candidates, given the best one before them. -/
def bestOf (found : List (List Node)) (best : Option Candidate) :
    List (List Node) → Pass (Option Candidate)
  | [] => return best
  | l :: rest => do
    check
    let c : Candidate := ⟨found.countP (Ascending.subset l), l⟩
    bestOf found (some (c.orBest best)) rest

/-- The overlap to take out of an OR with the given members, if there is one. -/
def bestOverlap (ms : List Node) : Pass (Option (List Node)) := do
  let found ← overlaps (← read (andLists · ms))
  return (← bestOf found none (Ascending.ofList found)).map (·.members)

/-! ## Taking out -/

/-- What is left of the members of an OR when an overlap is taken out: the rests of the ANDs that
contain it, and the other members. -/
structure Remainder where
  rests : List Node
  others : List Node

/-- Takes an overlap out of the members of an OR. -/
def takeOut (overlap : List Node) : List Node → Pass Remainder
  | [] => return ⟨[], []⟩
  | m :: rest => do
    if m.isAnd then
      let l ← members m
      if Ascending.subset overlap l then
        let n ← combine .and (Ascending.remove l overlap)
        let r ← takeOut overlap rest
        return { r with rests := n :: r.rests }
    let r ← takeOut overlap rest
    return { r with others := m :: r.others }

/-- Replaces the members of an OR that contain an overlap by the overlap joined to the OR of their
rests, which `factor` works on. -/
def factorOut (factor : Node → Pass Node) (ms overlap : List Node) : Pass Node := do
  let r ← takeOut overlap ms
  let inner ← factor (← combine .or r.rests)
  let factored ← combine .and (Ascending.merge overlap [inner])
  combine .or (r.others ++ [factored])

/-- Takes out overlaps, at most `rounds` of them, as long as there are any. -/
def factorAll (factor : Node → Pass Node) : Nat → Node → Pass Node
  | 0, n => return n
  | rounds + 1, n => do
    if !n.isOr then return n
    check
    let ms ← members n
    match ← bestOverlap ms with
    | none => return n
    | some overlap => factorAll factor rounds (← factorOut factor ms overlap)

/-- Factors a node; `fuel` bounds the levels and the rounds on each. -/
def factorWithin : Nat → Node → Pass Node
  | 0, n => return n
  | fuel + 1, n => do
    check
    match n.connective? with
    | none => return n
    | some k =>
      let n' ← combine k (← (← members n).mapM (factorWithin fuel))
      match k with
      | .and => return n'
      | .or => prune (← factorAll (fun m => factorWithin fuel m) fuel n')

/-- A node that holds exactly where `n` does, with common members of ANDs taken out of ORs. -/
def factor (n : Node) : Pass Node := fun w => factorWithin (w.store.effort n) n w

end Pass

end Criteria
