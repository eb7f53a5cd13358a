import KeyedTree.KeyIndex

/-! # Laws of key indexes

What each operation on a key index does to the positions it names. As the entries are in order, an
index is determined by these positions.
-/

namespace KeyedTree.KeyIndex

/-! ## Positions after an operation -/

/-- After `key` is placed, it is looked up at its position and all other keys as before. -/
theorem lookup_place (key other : String) (pos : Nat) (entries : List (String × Nat)) :
    (place key pos entries).lookup other =
      if other = key then some pos else entries.lookup other := by
  induction entries with
  | nil => grind [place]
  | cons head rest ih =>
      obtain ⟨held, heldPos⟩ := head
      have hsame : ¬key < held → ¬held < key → key = held := fun hle hge =>
        String.le_antisymm (String.not_lt.mp hge) (String.not_lt.mp hle)
      have hne : held < key → held ≠ key := fun hlt heq => String.lt_irrefl key (heq ▸ hlt)
      simp only [place]
      grind

@[simp] theorem get?_empty (key : String) : empty.get? key = none := rfl

@[simp] theorem set_empty_key (index : KeyIndex) (pos : Nat) : index.set "" pos = index := rfl

theorem get?_set {key : String} (hkey : key ≠ "") (index : KeyIndex) (pos : Nat)
    (other : String) :
    (index.set key pos).get? other = if other = key then some pos else index.get? other := by
  simp [set, hkey, get?, lookup_place]

theorem get?_erase (index : KeyIndex) (key other : String) :
    (index.erase key).get? other = if other = key then none else index.get? other := by
  simp only [erase, get?]
  induction index.entries with
  | nil => simp
  | cons head rest ih => grind

theorem get?_mapPositions (index : KeyIndex) (move : Nat → Nat) (key : String) :
    (index.mapPositions move).get? key = (index.get? key).map move := by
  simp only [mapPositions, get?]
  induction index.entries with
  | nil => rfl
  | cons head rest ih =>
      obtain ⟨held, pos⟩ := head
      grind

/-! ## Extensionality -/

/-- Keys below the first one are not entered. -/
theorem lookup_eq_none_of_lt {key : String} {entries : List (String × Nat)}
    (hlt : ∀ entry ∈ entries, key < entry.1) : entries.lookup key = none := by
  refine List.lookup_eq_none_iff.mpr fun entry hentry => ?_
  have hne : key ≠ entry.1 := fun h => String.lt_irrefl _ (h ▸ hlt entry hentry)
  simpa using hne

theorem entries_eq_of_lookup {first second : List (String × Nat)}
    (hfirst : first.Pairwise fun a b => a.1 < b.1)
    (hsecond : second.Pairwise fun a b => a.1 < b.1)
    (hlookup : ∀ key, first.lookup key = second.lookup key) : first = second := by
  induction first generalizing second with
  | nil =>
      cases second with
      | nil => rfl
      | cons entry rest =>
          have hheld : (entry :: rest).lookup entry.1 = some entry.2 := List.lookup_cons_self
          simp [← hlookup] at hheld
  | cons entry rest ih =>
      cases second with
      | nil =>
          have hheld : (entry :: rest).lookup entry.1 = some entry.2 := List.lookup_cons_self
          simp [hlookup] at hheld
      | cons entry' rest' =>
          obtain ⟨key, pos⟩ := entry
          obtain ⟨key', pos'⟩ := entry'
          obtain ⟨hall, hrest⟩ := List.pairwise_cons.mp hfirst
          obtain ⟨hall', hrest'⟩ := List.pairwise_cons.mp hsecond
          have hnone : rest.lookup key = none := lookup_eq_none_of_lt hall
          have hnone' : rest'.lookup key' = none := lookup_eq_none_of_lt hall'
          have hkey : key = key' := by
            refine String.le_antisymm (String.not_lt.mp fun hlt => ?_)
              (String.not_lt.mp fun hlt => ?_)
            · have hnone : (( key, pos) :: rest).lookup key' = none :=
                lookup_eq_none_of_lt (List.forall_mem_cons.mpr
                  ⟨hlt, fun entry hentry => String.lt_trans hlt (hall entry hentry)⟩)
              simp [hlookup] at hnone
            · have hnone : (( key', pos') :: rest').lookup key = none :=
                lookup_eq_none_of_lt (List.forall_mem_cons.mpr
                  ⟨hlt, fun entry hentry => String.lt_trans hlt (hall' entry hentry)⟩)
              simp [← hlookup] at hnone
          subst hkey
          have hpos : pos = pos' := by simpa using hlookup key
          subst hpos
          refine congrArg _ (ih hrest hrest' fun other => ?_)
          by_cases hother : other = key
          · rw [hother, hnone, hnone']
          · have := hlookup other
            rwa [List.lookup_cons, List.lookup_cons, beq_eq_false_iff_ne.mpr hother] at this

/-- An index is determined by the positions it names. -/
theorem ext_get? {first second : KeyIndex} (hget : ∀ key, first.get? key = second.get? key) :
    first = second := by
  obtain ⟨entries, hasc⟩ := first
  obtain ⟨entries', hasc'⟩ := second
  obtain rfl : entries = entries' := entries_eq_of_lookup hasc hasc' hget
  rfl

end KeyedTree.KeyIndex
