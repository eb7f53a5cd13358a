import KeyedTree.Tree.Access

/-! # Paths through trees

A path is a text of segments with dots between them. A segment is a key of an object or a position
in an array; empty segments do not count.
-/

namespace KeyedTree

/-- Why a segment is no position. -/
inductive PositionFault
  | notADigit
  | tooLarge
  deriving DecidableEq, Repr

/-- The wording of a position fault. -/
def PositionFault.message : PositionFault → String
  | .notADigit => "invalid digit found in string"
  | .tooLarge => "number too large to fit in target type"

/-- Why a path leads nowhere. -/
inductive PathFault
  | notAPosition (segment : String) (cause : PositionFault)
  | scalar (kind : Kind) (segment : String)
  | absent (fault : Fault)

/-- The position that further digits lead to; positions fit into 64 bits. -/
def positionFrom (pos : Nat) : List Char → Except PositionFault Nat
  | [] => .ok pos
  | digit :: rest =>
      if !digit.isDigit then .error .notADigit
      else
        let longer := 10 * pos + (digit.toNat - '0'.toNat)
        if longer < 2 ^ 64 then positionFrom longer rest else .error .tooLarge

/-- The position that a segment denotes; it may have a plus sign in front. -/
def position (segment : String) : Except PositionFault Nat :=
  match segment.toList with
  | [] => .error .notADigit
  | ['+'] => .error .notADigit
  | '+' :: digits => positionFrom 0 digits
  | digits => positionFrom 0 digits

/-- Splits a text at every dot. -/
def splitAtDots : List Char → List (List Char)
  | [] => [[]]
  | '.' :: rest => [] :: splitAtDots rest
  | c :: rest =>
      match splitAtDots rest with
      | [] => [[c]]
      | segment :: segments => (c :: segment) :: segments

/-- The segments of a path. -/
def pathSegments (path : String) : List String :=
  ((splitAtDots path.toList).filter (!·.isEmpty)).map String.ofList

namespace Tree

/-- The child that a segment leads to. -/
def step (tree : Tree) (segment : String) : Except PathFault Tree :=
  match tree.kind with
  | .array =>
      match position segment with
      | .ok pos => (tree.child pos).mapError .absent
      | .error cause => .error (.notAPosition segment cause)
  | .object => (tree.childOf segment).mapError .absent
  | kind => .error (.scalar kind segment)

/-- The subtree that segments lead to one after the other. -/
def followSegments (tree : Tree) : List String → Except PathFault Tree
  | [] => .ok tree
  | segment :: rest =>
      match tree.step segment with
      | .ok child => child.followSegments rest
      | .error fault => .error fault

/-- The subtree that a path leads to. -/
def follow (tree : Tree) (path : String) : Except PathFault Tree :=
  tree.followSegments (pathSegments path)

end Tree

end KeyedTree
