import Mathlib.Order.Basic
import KeyedTree.Proofs.WellFormed.Lookup

/-! # Keeping an index up to date

The index of a row of children can be built at any time. It need not be built anew when the row
changes: the operation that goes with the change makes of the index what building it of the changed
row would give. This holds of every row whose keys are distinct, wherever anonymous children stand
in it. Building the index of any other row reports the keys that are repeated.
-/

namespace KeyedTree

namespace KeyIndex

variable {index : KeyIndex}

/-! ## Repeated keys -/

theorem contains_set_self {key : String} (hkey : key ≠ "") (index : KeyIndex) (pos : Nat) :
    (index.set key pos).contains key = true := by
  simp [contains, get?_set hkey]

theorem contains_set_of_ne {key other : String} (hother : other ≠ key) (index : KeyIndex)
    (pos : Nat) :
    (index.set key pos).contains other = index.contains other := by
  by_cases hkey : key = ""
  · rw [hkey, set_empty_key]
  · simp [contains, get?_set hkey, hother]

/-- Unless the empty key is entered, it is not reported. -/
theorem empty_not_mem_enter (hunentered : index.contains "" = false) (pos : Nat)
    (keys : List String) :
    "" ∉ (index.enter pos keys).2 := by
  induction keys generalizing index pos with
  | nil => exact List.not_mem_nil
  | cons first rest ih =>
      rw [enter]
      by_cases hfirst : first = ""
      · subst hfirst
        simpa [hunentered] using ih hunentered (pos + 1)
      · have hrest :=
          ih ((contains_set_of_ne (Ne.symm hfirst) index pos).trans hunentered) (pos + 1)
        simp only
        split
        · exact List.not_mem_cons_of_ne_of_not_mem (Ne.symm hfirst) hrest
        · exact hrest

/-- A key is reported as often as it occurs in the row, except for its first occurrence if it was
not entered before. -/
theorem count_enter {key : String} (hkey : key ≠ "") (index : KeyIndex) (pos : Nat)
    (keys : List String) :
    (index.enter pos keys).2.count key = keys.count key - if index.contains key then 0 else 1 := by
  induction keys generalizing index pos with
  | nil => simp [enter]
  | cons first rest ih =>
      have hreported := ih (index.set first pos) (pos + 1)
      rw [enter]
      -- in the rest of the row the first key counts as entered
      by_cases hfirst : key = first
      · subst hfirst
        rw [contains_set_self hkey] at hreported
        cases hcontains : index.contains key <;> simp [hreported]
      · rw [contains_set_of_ne hfirst] at hreported
        rw [List.count_cons_of_ne (Ne.symm hfirst), ← hreported]
        simp only
        split
        · exact List.count_cons_of_ne (Ne.symm hfirst)
        · rfl

/-- Building an index reports exactly the non-empty keys that occur more than once. -/
theorem mem_repeated_iff {keys : List String} {key : String} :
    key ∈ (ofKeys keys).2 ↔ key ≠ "" ∧ 2 ≤ keys.count key := by
  by_cases hkey : key = ""
  · subst hkey
    have hnot : "" ∉ (ofKeys keys).2 := empty_not_mem_enter rfl 0 keys
    simpa using hnot
  · have hcount : (ofKeys keys).2.count key = keys.count key - 1 := count_enter hkey empty 0 keys
    rw [and_iff_right hkey, ← List.count_pos_iff, hcount]
    omega

/-! ## Changes of a row -/

/-- What holds of an index that keeps up with the changes of a row: the operation that goes with a
change gives the index that is built of the changed row, in which no key is repeated. -/
structure KeepsUp (index : KeyIndex) (row : List Tree) : Prop where
  /-- the index is built of the row -/
  built : ofKeys (row.map Tree.key) = (index, [])
  /-- a child whose key is empty or new comes in anywhere -/
  inserted : ∀ {pos child}, pos ≤ row.length → (child.key = "" ∨ child.key ∉ row.map Tree.key) →
    ofKeys ((row.insertIdx pos child).map Tree.key) = (index.insertAt child.key pos, [])
  /-- any child goes out -/
  removed : ∀ {pos child}, row[pos]? = some child →
    ofKeys ((row.eraseIdx pos).map Tree.key) = (index.removeAt child.key pos, [])
  /-- a keyed child takes a key that is empty or unused -/
  renamed : ∀ {pos child key}, row[pos]? = some child → child.key ≠ "" →
    (key = "" ∨ key ∉ row.map Tree.key) →
    ofKeys ((row.set pos (child.withKey key)).map Tree.key) = (index.rename child.key key, [])
  /-- an anonymous child takes a key that is empty or unused -/
  named : ∀ {pos child key}, row[pos]? = some child → child.key = "" →
    (key = "" ∨ key ∉ row.map Tree.key) →
    ofKeys ((row.set pos (child.withKey key)).map Tree.key) = (index.set key pos, [])

theorem Names.keepsUp {row : List Tree} (hnames : index.Names (row.map Tree.key)) :
    index.KeepsUp row := by
  have hkey {pos : Nat} {child : Tree} (hchild : row[pos]? = some child) :
      (row.map Tree.key)[pos]? = some child.key := by
    rw [List.getElem?_map, hchild, Option.map_some]
  refine ⟨hnames.ofKeys_eq, ?_, ?_, ?_, ?_⟩
  · intro pos child hpos hnew
    rw [List.map_insertIdx]
    exact (hnames.insertAt (hpos.trans_eq (List.length_map _).symm) hnew).ofKeys_eq
  · intro pos child hchild
    rw [Tree.map_eraseIdx]
    exact (hnames.removeAt (hkey hchild)).ofKeys_eq
  · intro pos child key hchild hkeyed hnew
    rw [List.map_set]
    exact (hnames.rename hkeyed (hkey hchild) hnew).ofKeys_eq
  · intro pos child key hchild hanonymous hnew
    rw [List.map_set]
    exact (hnames.set (hanonymous ▸ hkey hchild) hnew).ofKeys_eq

/-- The index that is built of a row with distinct keys keeps up with the row. Of any row, exactly
the non-empty keys that occur more than once are reported; so none is reported of a row with
distinct keys. -/
theorem built_index_keeps_up (row : List Tree) :
    (Tree.Distinct (row.map Tree.key) → (ofKeys (row.map Tree.key)).1.KeepsUp row) ∧
      ∀ key, key ∈ (ofKeys (row.map Tree.key)).2 ↔ key ≠ "" ∧ 2 ≤ (row.map Tree.key).count key :=
  ⟨fun hdistinct => (names_ofKeys (repeated_eq_nil_iff.mpr hdistinct)).keepsUp,
    fun _ => mem_repeated_iff⟩

/-- A row with an anonymous child between two keyed ones. -/
def mixedRow : List Tree :=
  [Tree.blank.withKey "k", Tree.blank, Tree.blank.withKey "m"]

theorem mixedRow_index_keeps_up :
    Tree.Distinct (mixedRow.map Tree.key) ∧
      ofKeys ((mixedRow.insertIdx 1 (Tree.blank.withKey "l")).map Tree.key) =
        ((ofKeys (mixedRow.map Tree.key)).1.insertAt "l" 1, []) ∧
      ((ofKeys (mixedRow.map Tree.key)).1.insertAt "l" 1).entries =
        [("k", 0), ("l", 1), ("m", 3)] := by
  have hdistinct : Tree.Distinct (mixedRow.map Tree.key) := by
    unfold Tree.Distinct
    decide
  have hkeepsUp := (built_index_keeps_up mixedRow).1 hdistinct
  refine ⟨hdistinct, hkeepsUp.inserted (by decide) (.inr ?_), by decide⟩
  decide

end KeyIndex

end KeyedTree
