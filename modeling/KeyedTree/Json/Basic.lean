import KeyedTree.Json.Fraction

/-! # JSON values

General JSON values, as they are exchanged with other programs. The members of an object keep their
order. Numbers without a fraction are kept exactly if they fit into 64 bits, with or without a
sign.
-/

namespace KeyedTree

/-- A number of a JSON value. -/
inductive Number
  | integer (value : Int)
  | fraction (value : Fraction)
  deriving DecidableEq

/-- A JSON value. -/
inductive Json
  | null
  | bool (value : Bool)
  | number (value : Number)
  | string (value : String)
  | array (items : List Json)
  | object (members : List (String × Json))

namespace Json

instance : Inhabited Json := ⟨.null⟩

/-- The value of the last member under `key`. -/
def member? (json : Json) (key : String) : Option Json :=
  match json with
  | .object members => (members.reverse.find? (·.1 == key)).map (·.2)
  | _ => none

/-- Members with `key` set to a value: a member that is there keeps its place, a new one comes
last. -/
def setMember (key : String) (value : Json) :
    List (String × Json) → List (String × Json)
  | [] => [(key, value)]
  | member :: rest =>
      if member.1 = key then (key, value) :: rest else member :: setMember key value rest

end Json

end KeyedTree
