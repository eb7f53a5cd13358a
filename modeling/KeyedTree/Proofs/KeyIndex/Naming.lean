import Mathlib.Data.List.Basic
import KeyedTree.Change
import KeyedTree.KeyIndex.Lemmas

/-! # Indexes that name a row of keys

An index names a row when it enters exactly the non-empty keys of the row, each at the position
where it stands. A row that is named holds no key twice. Every operation on indexes goes together
with a change of the row, and the index names the changed row if it named the row before.
-/

namespace KeyedTree.KeyIndex

/-- The index enters exactly the non-empty keys of the row, each where it stands. -/
def Names (index : KeyIndex) (keys : List String) : Prop :=
  ∀ key pos, index.get? key = some pos ↔ key ≠ "" ∧ keys[pos]? = some key

variable {index : KeyIndex} {keys : List String}

namespace Names

theorem ne_empty (hnames : index.Names keys) {key : String} {pos : Nat}
    (hget : index.get? key = some pos) : key ≠ "" :=
  ((hnames key pos).mp hget).1

theorem getElem?_eq (hnames : index.Names keys) {key : String} {pos : Nat}
    (hget : index.get? key = some pos) : keys[pos]? = some key :=
  ((hnames key pos).mp hget).2

theorem lt_length (hnames : index.Names keys) {key : String} {pos : Nat}
    (hget : index.get? key = some pos) : pos < keys.length :=
  (List.getElem?_eq_some_iff.mp (hnames.getElem?_eq hget)).1

/-- A non-empty key stands at one position only. -/
theorem pos_unique (hnames : index.Names keys) {key : String} {first second : Nat}
    (hkey : key ≠ "") (hfirst : keys[first]? = some key) (hsecond : keys[second]? = some key) :
    first = second := by
  have hget := (hnames key first).mpr ⟨hkey, hfirst⟩
  rw [(hnames key second).mpr ⟨hkey, hsecond⟩] at hget
  exact (Option.some.inj hget).symm

theorem contains_iff (hnames : index.Names keys) (key : String) :
    index.contains key = true ↔ key ≠ "" ∧ key ∈ keys := by
  rw [contains, Option.isSome_iff_exists, List.mem_iff_getElem?]
  constructor
  · rintro ⟨pos, hget⟩
    exact ⟨hnames.ne_empty hget, pos, hnames.getElem?_eq hget⟩
  · rintro ⟨hkey, pos, hpos⟩
    exact ⟨pos, (hnames key pos).mpr ⟨hkey, hpos⟩⟩

theorem get?_eq_none_iff (hnames : index.Names keys) (key : String) :
    index.get? key = none ↔ key = "" ∨ key ∉ keys := by
  rw [← Option.not_isSome_iff_eq_none, show (index.get? key).isSome = index.contains key from rfl,
    hnames.contains_iff key, not_and_or, not_not]

theorem contains_eq_false_iff (hnames : index.Names keys) (key : String) :
    index.contains key = false ↔ key = "" ∨ key ∉ keys := by
  rw [← hnames.get?_eq_none_iff key, contains, Option.isSome_eq_false_iff,
    Option.isNone_iff_eq_none]

/-- Only one index names a row. -/
theorem index_unique (hnames : index.Names keys) {other : KeyIndex} (hother : other.Names keys) :
    index = other := by
  apply ext_get?
  intro key
  apply Option.ext
  intro pos
  rw [hnames key pos, hother key pos]

/-- The empty index names the rows without non-empty keys. -/
theorem of_all_empty (hkeys : ∀ key ∈ keys, key = "") : empty.Names keys := by
  intro key pos
  simp only [get?_empty, reduceCtorEq, false_iff, not_and]
  intro hkey hpos
  exact hkey (hkeys key (List.mem_of_getElem? hpos))

theorem nil : empty.Names [] :=
  of_all_empty (by simp)

end Names

/-! ## Positions after changes of a row -/

theorem get?_insertAt (index : KeyIndex) (key other : String) (pos : Nat) :
    (index.insertAt key pos).get? other =
      if other = key ∧ key ≠ "" then some pos
      else (index.get? other).map fun p => if pos ≤ p then p + 1 else p := by
  unfold insertAt
  by_cases hkey : key = ""
  · subst hkey
    simp [get?_mapPositions]
  · simp [get?_set hkey, get?_mapPositions, hkey]

theorem get?_removeAt (index : KeyIndex) (key other : String) (pos : Nat) :
    (index.removeAt key pos).get? other =
      if other = key ∧ key ≠ "" then none
      else (index.get? other).map fun p => if pos < p then p - 1 else p := by
  unfold removeAt
  rw [get?_mapPositions]
  by_cases hkey : key = ""
  · simp [hkey]
  · by_cases hother : other = key <;> simp [hkey, hother, get?_erase]

theorem get?_rename {old new : String} {pos : Nat} (hget : index.get? old = some pos)
    (other : String) :
    (index.rename old new).get? other =
      if other = new ∧ new ≠ "" then some pos
      else if other = old then none else index.get? other := by
  unfold rename
  rw [hget]
  by_cases hnew : new = ""
  · subst hnew
    simp [get?_erase]
  · simp [get?_set hnew, get?_erase, hnew]

/-! ## Naming after changes of a row -/

namespace Names

/-- Where the index looks a key up, told by the row alone. -/
theorem get?_cases (hnames : index.Names keys) (key : String) :
    (∃ pos, index.get? key = some pos ∧ key ≠ "" ∧ ∀ p : Nat, keys[p]? = some key ↔ p = pos) ∨
      (index.get? key = none ∧ (key ≠ "" → ∀ p : Nat, keys[p]? ≠ some key)) := by
  cases hget : index.get? key with
  | none =>
      refine .inr ⟨rfl, fun hkey p hp => ?_⟩
      rw [(hnames key p).mpr ⟨hkey, hp⟩] at hget
      cases hget
  | some pos =>
      have hkey := hnames.ne_empty hget
      have hpos := hnames.getElem?_eq hget
      exact .inl ⟨pos, rfl, hkey, fun p => ⟨fun hp => hnames.pos_unique hkey hp hpos, (· ▸ hpos)⟩⟩

/-- A key that is empty or new can be put in anywhere. -/
theorem insertAt (hnames : index.Names keys) {key : String} {pos : Nat} (hpos : pos ≤ keys.length)
    (hnew : key = "" ∨ key ∉ keys) : (index.insertAt key pos).Names (keys.insertIdx pos key) := by
  intro other found
  rw [get?_insertAt, List.getElem?_insertIdx]
  have hout : key ≠ "" → ∀ p : Nat, keys[p]? ≠ some key := fun hkey p hp =>
    (hnew.resolve_left hkey) (List.mem_of_getElem? hp)
  rcases hnames.get?_cases other with ⟨p, hget, hother, hfound⟩ | ⟨hget, hnone⟩
  · rw [hget]
    grind
  · rw [hget]
    grind

/-- Any child can be taken out. -/
theorem removeAt (hnames : index.Names keys) {key : String} {pos : Nat}
    (hpos : keys[pos]? = some key) : (index.removeAt key pos).Names (keys.eraseIdx pos) := by
  intro other found
  rw [get?_removeAt, List.getElem?_eraseIdx]
  rcases hnames.get?_cases other with ⟨p, hget, hother, hfound⟩ | ⟨hget, hnone⟩
  · rw [hget]
    grind
  · rw [hget]
    grind

/-- An anonymous child can take a key that is empty or new. -/
theorem set (hnames : index.Names keys) {key : String} {pos : Nat} (hpos : keys[pos]? = some "")
    (hnew : key = "" ∨ key ∉ keys) : (index.set key pos).Names (keys.set pos key) := by
  have hlt : pos < keys.length := (List.getElem?_eq_some_iff.mp hpos).1
  intro other at_
  rw [List.getElem?_set]
  have hold := hnames other at_
  by_cases hkey : key = ""
  · subst hkey
    rw [set_empty_key]
    grind
  · have hout : keys[at_]? = some other → other ≠ key := fun hp heq =>
      (hnew.resolve_left hkey) (heq ▸ List.mem_of_getElem? hp)
    rw [get?_set hkey]
    grind

/-- A keyed child can take a key that is empty or new. -/
theorem rename (hnames : index.Names keys) {old new : String} {pos : Nat} (hold : old ≠ "")
    (hpos : keys[pos]? = some old) (hnew : new = "" ∨ new ∉ keys) :
    (index.rename old new).Names (keys.set pos new) := by
  have hlt : pos < keys.length := (List.getElem?_eq_some_iff.mp hpos).1
  intro other at_
  rw [get?_rename ((hnames old pos).mpr ⟨hold, hpos⟩), List.getElem?_set]
  have hother := hnames other at_
  have honce : other ≠ "" → keys[at_]? = some other → other = old → at_ = pos :=
    fun hne hp heq => hnames.pos_unique hne hp (heq ▸ hpos)
  have hout : new ≠ "" → keys[at_]? = some other → other ≠ new := fun hne hp heq =>
    (hnew.resolve_left hne) (heq ▸ List.mem_of_getElem? hp)
  grind

/-- A keyed child can be put elsewhere. -/
theorem move (hnames : index.Names keys) {key : String} {source target : Nat}
    (hget : index.get? key = some source) (htarget : target ≤ keys.length - 1) :
    ((index.removeAt key source).insertAt key target).Names (moveWithin keys source target) := by
  have hsource := hnames.getElem?_eq hget
  have hlt := hnames.lt_length hget
  have hlength : (keys.eraseIdx source).length = keys.length - 1 := by
    rw [List.length_eraseIdx, if_pos hlt]
  have hgone : key ∉ keys.eraseIdx source := by
    intro hmem
    obtain ⟨at_, hat⟩ := List.mem_iff_getElem?.mp hmem
    rw [List.getElem?_eraseIdx] at hat
    have honce : ∀ pos, keys[pos]? = some key → source = pos := fun pos hpos =>
      hnames.pos_unique (hnames.ne_empty hget) hsource hpos
    split at hat
    next hbefore => exact absurd (honce at_ hat) (by omega)
    next hbehind => exact absurd (honce (at_ + 1) hat) (by omega)
  have hplace : target ≤ (keys.eraseIdx source).length := by rwa [hlength]
  have hnamed := (hnames.removeAt hsource).insertAt hplace (.inr hgone)
  simpa only [moveWithin, hsource, insertInto, hlength, Nat.min_eq_left htarget] using hnamed

end Names

/-! ## Building an index -/

/-- Entering a row of keys behind a named one. As long as no key is repeated, the index names the
whole row; a repeated key is listed. -/
theorem Names.enter (hnames : index.Names keys) (rest : List String) :
    ((index.enter keys.length rest).2 = [] →
      (index.enter keys.length rest).1.Names (keys ++ rest)) ∧
      ((∃ whole : KeyIndex, whole.Names (keys ++ rest)) →
        (index.enter keys.length rest).2 = []) := by
  induction rest generalizing index keys with
  | nil => simpa [KeyIndex.enter] using hnames
  | cons key rest ih =>
      have hlength : (keys ++ [key]).length = keys.length + 1 := List.length_append
      have happend : keys ++ key :: rest = keys ++ [key] ++ rest := by simp
      have hnext : index.contains key = false →
          (index.set key keys.length).Names (keys ++ [key]) := by
        intro hcontains
        have hnamed :=
          hnames.insertAt (Nat.le_refl _) ((hnames.contains_eq_false_iff key).mp hcontains)
        rw [List.insertIdx_length_self] at hnamed
        -- nothing stands behind the end of the row, so no position moves
        have hsame :
            index.mapPositions (fun p => if keys.length ≤ p then p + 1 else p) = index := by
          apply ext_get?
          intro other
          rw [get?_mapPositions]
          cases hget : index.get? other with
          | none => rfl
          | some p => simp [Nat.not_le.mpr (hnames.lt_length hget)]
        rwa [KeyIndex.insertAt, hsame] at hnamed
      simp only [KeyIndex.enter]
      rw [happend, ← hlength]
      refine ⟨?_, ?_⟩
      · split
        next hcontains => simp
        next hcontains => exact (ih (hnext (eq_false_of_ne_true hcontains))).1
      · rintro ⟨whole, hwhole⟩
        have hcontains : index.contains key = false := by
          rw [hnames.contains_eq_false_iff key]
          by_contra hheld
          obtain ⟨hkey, hmem⟩ := not_or.mp hheld
          obtain ⟨pos, hpos⟩ := List.mem_iff_getElem?.mp (not_not.mp hmem)
          have hlt := (List.getElem?_eq_some_iff.mp hpos).1
          have hsame : pos = keys.length := hwhole.pos_unique hkey
            (by rw [List.append_assoc, List.getElem?_append_left hlt, hpos])
            (by simp)
          omega
        rw [hcontains]
        exact (ih (hnext hcontains)).2 ⟨whole, hwhole⟩

/-- The index that is built of a row without repeated keys names it. -/
theorem names_ofKeys (hrepeated : (ofKeys keys).2 = []) : (ofKeys keys).1.Names keys := by
  have hnamed := (Names.nil.enter keys).1 hrepeated
  rwa [List.nil_append] at hnamed

/-- Building an index of a named row reports no key and gives the index that names it. -/
theorem Names.ofKeys_eq (hnames : index.Names keys) : ofKeys keys = (index, []) := by
  have hrepeated : (ofKeys keys).2 = [] := (Names.nil.enter keys).2 ⟨index, by simpa using hnames⟩
  exact Prod.ext ((names_ofKeys hrepeated).index_unique hnames) hrepeated

end KeyedTree.KeyIndex
