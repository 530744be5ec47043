import Criteria.Forest

/-!
# Merging forests

A node of one forest means nothing in another: leaves are coded over another vocabulary, lists have
other numbers. `Forest.recode` carries a node over by building it anew, each distinct node once.
A leaf is read by the translator of the one forest, which remembers it, and coded by that of the
other. Where the vocabulary of the one continues that of the other, leaf codes mean the same in both
and are taken as they are.

The forest that is read stays what it is but for what its translator remembers. `takeOver` and
`mergeWith` say what becomes of both forests, `recode` and `merge` only what becomes of the one that
takes over.
-/

namespace Criteria

namespace Forest

/-- A forest that takes over nodes of another, the translator of the other, and what became of the
nodes that were taken over. -/
structure Recoding where
  forest : Forest
  source : Translator
  known : Std.HashMap Node Node

namespace Recoding

variable {α : Type}

/-- The forest that takes over nodes of `other`, before it has taken over any. -/
def start (f other : Forest) : Recoding := ⟨f, other.translator, ∅⟩

/-- Works on the forest that takes over. -/
def work (x : Attempt Forest α) : Attempt Recoding α := fun ⟨f, source, known⟩ =>
  match x f with
  | .ok a f => .ok a ⟨f, source, known⟩
  | .error fault f => .error fault ⟨f, source, known⟩

/-- Reads with the translator of the other forest. -/
def read (x : Attempt Translator α) : Attempt Recoding α := fun ⟨f, source, known⟩ =>
  match x source with
  | .ok a source => .ok a ⟨f, source, known⟩
  | .error fault source => .error fault ⟨f, source, known⟩

/-- Notes what became of a node. -/
def note (n n' : Node) : Attempt Recoding Unit :=
  modify fun x => { x with known := x.known.insert n n' }

end Recoding

/-- Takes over a leaf of the other forest. -/
def recodeLeaf (n : Node) : Attempt Recoding Node := do
  let x ← get
  if x.forest.vocabulary.continues x.source.vocabulary then return n
  let l ← Recoding.read (Translator.decodeLeaf n)
  Recoding.work (translate (Translator.encodeLeaf l))

/-- Takes over a node of `other` that nests less deep than `fuel`. -/
def recodeWithin (other : Forest) : Nat → Node → Attempt Recoding Node
  | 0, n => throw (.cyclic n)
  | fuel + 1, n => do
    if n.isConstant then return n
    if let some n' := (← get).known[n]? then return n'
    let n' ← match n.connective? with
      | some k => do
        let ms ← ofExcept (other.store.members n)
        let ms' ← ms.mapM (recodeWithin other fuel)
        Recoding.work (build (Build.combine k ms'))
      | none => recodeLeaf n
    Recoding.note n n'
    return n'

/-- More levels than a node can nest. -/
def nesting (f : Forest) : Nat := f.store.size + 2

/-- Takes over a node of the second forest into the first. -/
def takeOver (n : Node) : Attempt (Forest × Forest) Node := fun (f, other) =>
  match recodeWithin other other.nesting n (.start f other) with
  | .ok n' x => .ok n' (x.forest, { other with translator := x.source })
  | .error fault x => .error fault (x.forest, { other with translator := x.source })

/-- Takes over a node of `other`. -/
def recode (other : Forest) (n : Node) : Attempt Forest Node := fun f =>
  match takeOver n (f, other) with
  | .ok n' s => .ok n' s.1
  | .error fault s => .error fault s.1

/-- The forest with the roots of `f`, as they are, and those of the other forest. -/
def mergeWith (f : Forest) : Attempt Forest Forest := fun other =>
  match f.translator.merge other.translator with
  | .error fault => .error fault other
  | .ok translator =>
    match other.roots.mapM (recodeWithin other other.nesting)
        (.start { f with translator } other) with
    | .ok ns x => .ok { x.forest with roots := f.roots ++ ns } { other with translator := x.source }
    | .error fault x => .error fault { other with translator := x.source }

/-- The forest with the roots of both, those of `f` as they are. -/
def merge (f other : Forest) : Except Fault Forest :=
  match f.mergeWith other with
  | .ok m _ => .ok m
  | .error fault _ => .error fault

end Forest

end Criteria
