/-! # Key indexes

A key index says at which position the child with a given key stands. It is kept as a list of
entries in ascending key order, so that two indexes with the same entries are equal. The empty key
marks an anonymous child and is never entered.
-/

namespace KeyedTree

/-- Positions of the keyed children of one node, in ascending key order. -/
structure KeyIndex where
  entries : List (String × Nat)
  ascending : entries.Pairwise fun a b => a.1 < b.1
  deriving DecidableEq

namespace KeyIndex

/-- The index without entries. -/
def empty : KeyIndex := ⟨[], .nil⟩

instance : Inhabited KeyIndex := ⟨empty⟩

/-- The position entered for `key`. -/
def get? (index : KeyIndex) (key : String) : Option Nat :=
  index.entries.lookup key

/-- Whether `key` is entered. -/
def contains (index : KeyIndex) (key : String) : Bool :=
  (index.get? key).isSome

/-- Number of entries. -/
def size (index : KeyIndex) : Nat :=
  index.entries.length

/-- Enters `key` at its place in the order; an entry for the same key gives way. -/
def place (key : String) (pos : Nat) : List (String × Nat) → List (String × Nat)
  | [] => [(key, pos)]
  | entry :: rest =>
      if key < entry.1 then (key, pos) :: entry :: rest
      else if entry.1 < key then entry :: place key pos rest
      else (key, pos) :: rest

theorem mem_place {key : String} {pos : Nat} {entries : List (String × Nat)}
    {entry : String × Nat} (hmem : entry ∈ place key pos entries) :
    entry = (key, pos) ∨ entry ∈ entries := by
  induction entries with
  | nil => simpa [place] using hmem
  | cons head rest ih =>
      simp only [place] at hmem
      split at hmem
      · simpa using hmem
      · split at hmem
        · rcases List.mem_cons.mp hmem with rfl | htail
          · exact .inr List.mem_cons_self
          · exact (ih htail).imp id (List.mem_cons_of_mem _)
        · rcases List.mem_cons.mp hmem with rfl | htail
          · exact .inl rfl
          · exact .inr (List.mem_cons_of_mem _ htail)

theorem place_ascending (key : String) (pos : Nat) {entries : List (String × Nat)}
    (hasc : entries.Pairwise fun a b => a.1 < b.1) :
    (place key pos entries).Pairwise fun a b => a.1 < b.1 := by
  induction entries with
  | nil => simp [place]
  | cons head rest ih =>
      obtain ⟨hhead, hrest⟩ := List.pairwise_cons.mp hasc
      simp only [place]
      split
      next hlt =>
        refine List.pairwise_cons.mpr ⟨?_, hasc⟩
        intro entry hentry
        rcases List.mem_cons.mp hentry with rfl | htail
        · exact hlt
        · exact String.lt_trans hlt (hhead entry htail)
      next hnlt =>
        split
        next hgt =>
          refine List.pairwise_cons.mpr ⟨?_, ih hrest⟩
          intro entry hentry
          rcases mem_place hentry with rfl | htail
          · exact hgt
          · exact hhead entry htail
        next hngt =>
          have heq : key = head.1 :=
            String.le_antisymm (String.not_lt.mp hngt) (String.not_lt.mp hnlt)
          exact List.pairwise_cons.mpr ⟨fun entry htail => heq ▸ hhead entry htail, hrest⟩

/-- Enters `key` at `pos`, unless the key is empty. -/
def set (index : KeyIndex) (key : String) (pos : Nat) : KeyIndex :=
  if key = "" then index
  else ⟨place key pos index.entries, place_ascending key pos index.ascending⟩

/-- The index without `key`. -/
def erase (index : KeyIndex) (key : String) : KeyIndex :=
  ⟨index.entries.filter (·.1 ≠ key), index.ascending.filter _⟩

/-- The index with every position put through `move`. -/
def mapPositions (index : KeyIndex) (move : Nat → Nat) : KeyIndex :=
  ⟨index.entries.map fun entry => (entry.1, move entry.2), index.ascending.map _ fun _ _ h => h⟩

/-- Makes room at `pos` and enters `key` there, unless the key is empty. -/
def insertAt (index : KeyIndex) (key : String) (pos : Nat) : KeyIndex :=
  (index.mapPositions fun p => if pos ≤ p then p + 1 else p).set key pos

/-- Drops `key` and closes the gap that its child leaves at `pos`. -/
def removeAt (index : KeyIndex) (key : String) (pos : Nat) : KeyIndex :=
  (if key = "" then index else index.erase key).mapPositions fun p => if pos < p then p - 1 else p

/-- Enters `new` in place of `old`, unless `new` is empty; without `old` there is nothing to do. -/
def rename (index : KeyIndex) (old new : String) : KeyIndex :=
  match index.get? old with
  | none => index
  | some pos => (index.erase old).set new pos

/-- Enters `keys` from position `pos` on, and lists the keys that were already entered. A later
occurrence takes the entry of an earlier one. -/
def enter (index : KeyIndex) (pos : Nat) : List String → KeyIndex × List String
  | [] => (index, [])
  | key :: rest =>
      let (done, repeated) := (index.set key pos).enter (pos + 1) rest
      (done, if index.contains key then key :: repeated else repeated)

/-- The index of a row of children with these keys, and the keys that occur more than once. -/
def ofKeys (keys : List String) : KeyIndex × List String :=
  empty.enter 0 keys

/-- Whether the index names exactly the non-empty keys of the row, each where it stands. -/
def agrees (index : KeyIndex) (keys : List String) : Bool :=
  (keys.filter (· ≠ "")).length == index.size &&
    index.entries.all fun (key, pos) => keys[pos]? == some key

end KeyIndex

end KeyedTree
