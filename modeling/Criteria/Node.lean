import Criteria.Operator

/-!
# Nodes

Every condition is handled as one 32-bit code, its *node*.

| bits    | leaf                                | combined               |
|---------|-------------------------------------|------------------------|
| 0       | negation                            | number of member list  |
| 1 to 3  | tag of the operator, 1 to 5         | number                 |
| 4       | reference flag                      | number                 |
| 5 to 16 | argument                            | number                 |
| 17 to 30| value, or argument referred to      | to bit 29; bit 30: OR  |
| 31      | 0                                   | 1                      |

The codes `0` and `1` are the two constants, so negating a leaf or a constant flips bit 0, and the
code of all ones is no node at all. Nodes are ordered by code: constants, leaves, ANDs, ORs.

Fields are read and written by division and remainder, which says what the layout says and leaves
arithmetic facts to prove.
-/

namespace Criteria

/-- A condition as a 32-bit code. -/
structure Node where
  code : UInt32
  deriving DecidableEq, Hashable

namespace Node

instance : LT Node := ⟨fun a b => a.code < b.code⟩

instance : DecidableLT Node := fun a b => inferInstanceAs (Decidable (a.code < b.code))

/-- The code as a number. -/
def toNat (n : Node) : Nat := n.code.toNat

/-- The node with a given code. -/
def ofNat (code : Nat) : Node := ⟨UInt32.ofNat code⟩

/-! ## Constants and the invalid node -/

/-- The condition that every record meets. -/
def all : Node := ⟨0⟩

/-- The condition that no record meets. -/
def none : Node := ⟨1⟩

/-- The code that stands for no condition. -/
def invalid : Node := ⟨0xFFFFFFFF⟩

instance : Inhabited Node := ⟨invalid⟩

/-- The node of a constant. -/
def ofConstant : Constant → Node
  | .all => all
  | .none => none

/-- Whether the node stands for no condition. -/
def isInvalid (n : Node) : Bool := n = invalid

/-- Whether the node is a constant. -/
def isConstant (n : Node) : Bool := n.toNat ≤ 1

/-- The node with bit 0 flipped: the negation of a leaf or constant. -/
def flip (n : Node) : Node :=
  ⟨if n.toNat % 2 = 0 then n.code + 1 else n.code - 1⟩

/-! ## Combined nodes -/

/-- How many names a leaf can tell apart. -/
def maxNames : Nat := 4096

/-- How many values a leaf can tell apart. -/
def maxValues : Nat := 16384

/-- The greatest number of a member list that a combined node can hold. -/
def maxNumber : Nat := 1073741822

/-- The node that joins the members of list number `id`. -/
def combined (k : Connective) (id : Nat) : Node :=
  ofNat (match k with
    | .and => 2147483648 + id
    | .or => 3221225472 + id)

/-- Whether the node joins members. -/
def isCombined (n : Node) : Bool := 2147483648 ≤ n.toNat && !n.isInvalid

/-- How a combined node joins its members. -/
def connective? (n : Node) : Option Connective :=
  if n.isCombined then
    if n.toNat / 1073741824 % 2 = 1 then some .or else some .and
  else Option.none

theorem isCombined_of_connective? {n : Node} {k : Connective} (h : n.connective? = some k) :
    n.isCombined = true := by
  unfold connective? at h
  split at h
  · assumption
  · simp at h

/-- Whether the node joins its members by AND. -/
def isAnd (n : Node) : Bool := n.connective? = some .and

/-- Whether the node joins its members by OR. -/
def isOr (n : Node) : Bool := n.connective? = some .or

/-- The number of the member list of a combined node. -/
def number (n : Node) : Nat := n.toNat % 1073741824

/-! ## Leaves -/

/-- The leaf with the given fields. -/
def leaf (negated : Bool) (op : Operator) (reference : Bool) (argument value : Nat) : Node :=
  ofNat (value * 131072 + argument * 32 + (if reference then 16 else 0) + op.tag * 2
    + if negated then 1 else 0)

/-- The leaf that holds where argument number `argument` is unknown. -/
def unknownOf (argument : Nat) : Node := leaf false .isUnknown false argument 0

/-- Whether the node is neither constant, nor combined, nor invalid. -/
def isLeaf (n : Node) : Bool := 1 < n.toNat && n.toNat < 2147483648

/-- Whether the negation bit is set. -/
def isNegated (n : Node) : Bool := n.toNat % 2 = 1

/-- The operator tag of a leaf. -/
def tag (n : Node) : Nat := n.toNat / 2 % 8

/-- The operator of a leaf, unless the tag is none of an operator. -/
def operator? (n : Node) : Option Operator :=
  if n.isLeaf then Operator.ofTag? n.tag else Option.none

/-- Whether the reference bit is set. -/
def hasReference (n : Node) : Bool := n.toNat / 16 % 2 = 1

/-- The number of the argument of a leaf. -/
def argument (n : Node) : Nat := n.toNat / 32 % 4096

/-- The number of the value of a leaf, or of the argument that it refers to. -/
def value (n : Node) : Nat := n.toNat / 131072 % 16384

/-- Whether the node is a leaf with the negation bit. -/
def isNegation (n : Node) : Bool := n.isLeaf && n.isNegated

/-- Whether the node is a leaf with the reference bit. -/
def isReference (n : Node) : Bool := n.isLeaf && n.hasReference

/-- Whether the node asks only if an argument is known. -/
def isUnknownCheck (n : Node) : Bool := n.isLeaf && n.tag = Operator.isUnknown.tag

/-- Whether the node is `x IS UNKNOWN` for some argument. -/
def isUnknown (n : Node) : Bool := n.isUnknownCheck && !n.isNegated

/-- Whether the node is `x IS NOT UNKNOWN` for some argument. -/
def isKnown (n : Node) : Bool := n.isUnknownCheck && n.isNegated

/-- Whether the node is a leaf that can only hold where argument number `x` is known. -/
def requires (n : Node) (x : Nat) : Bool :=
  n.isLeaf && !n.isUnknown && (n.argument = x || n.hasReference && n.value = x)

/-! ## Text -/

/-- The node as it is printed, with numbers in the place of names and values. -/
def text (n : Node) : String :=
  if n.isInvalid then "<INVALID>"
  else if n = all then Constant.all.text
  else if n = none then Constant.none.text
  else match n.connective? with
  | some .and => "&" ++ toString n.number
  | some .or => "|" ++ toString n.number
  | Option.none =>
    let sign := if n.isNegated then "~" else ""
    match n.operator? with
    | Option.none => "<?0x" ++ String.ofList (Nat.toDigits 16 n.toNat) ++ ">"
    | some .isUnknown => sign ++ "#" ++ toString n.argument ++ "?"
    | some op =>
      sign ++ "#" ++ toString n.argument ++ op.symbol ++ (if n.hasReference then "@#" else "$")
        ++ toString n.value

end Node

end Criteria
