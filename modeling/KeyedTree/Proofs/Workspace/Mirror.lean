import KeyedTree.Proofs.Heap.Writing
import KeyedTree.Workspace.Private
import KeyedTree.Workspace.Shared

/-! # Sharing is not seen

A workspace that shares nodes shows the same trees in the same slots as one that copies them. Every
request keeps it that way and is answered alike by both, but for the questions that are about
sharing itself.
-/

namespace KeyedTree

/-! ## What a shelf holds -/

theorem optionRel_cases {α β : Type} {R : α → β → Prop} {first : Option α} {second : Option β}
    (hrel : Option.Rel R first second) :
    (∃ value value', first = some value ∧ second = some value' ∧ R value value') ∨
      (first = none ∧ second = none) := by
  cases hrel with
  | none => exact .inr ⟨rfl, rfl⟩
  | some hvalue => exact .inl ⟨_, _, rfl, rfl, hvalue⟩

namespace Shelf

variable {α β : Type}

/-- The values in the slots of a shelf. -/
def held (shelf : Shelf α) : List α :=
  shelf.entries.filterMap Prod.snd

theorem set_set (shelf : Shelf α) (slot : Slot) (first second : Option α) :
    (shelf.set slot first).set slot second = shelf.set slot second := by
  obtain ⟨entries⟩ := shelf
  simp only [set, mk.injEq]
  induction entries with
  | nil => simp [place]
  | cons entry rest ih =>
      by_cases hentry : entry.1 = slot
      · simp [place, hentry]
      · simp [place, hentry, ih]

/-- Putting into a slot what it holds changes nothing. -/
theorem set_self {shelf : Shelf α} {slot : Slot} {value : α}
    (hget : shelf.get? slot = some value) : shelf.set slot (some value) = shelf := by
  obtain ⟨entries⟩ := shelf
  simp only [get?, set, mk.injEq] at hget ⊢
  induction entries with
  | nil => cases hget
  | cons entry rest ih =>
      obtain ⟨listed, old⟩ := entry
      rw [List.lookup_cons] at hget
      by_cases hentry : listed = slot
      · subst hentry
        rw [beq_self_eq_true] at hget
        simp only [Option.join_some] at hget
        simp [place, hget]
      · rw [beq_eq_false_iff_ne.mpr (Ne.symm hentry)] at hget
        rw [place, if_neg hentry, ih hget]

theorem get?_set (shelf : Shelf α) (slot other : Slot) (value : Option α) :
    (shelf.set slot value).get? other = if other = slot then value else shelf.get? other := by
  obtain ⟨entries⟩ := shelf
  simp only [get?, set]
  have hskip : ∀ (entry : Slot × Option α) (rest : List (Slot × Option α)), other ≠ entry.1 →
      (entry :: rest).lookup other = rest.lookup other := by
    intro entry rest hne
    rw [List.lookup_cons, beq_eq_false_iff_ne.mpr hne]
  induction entries with
  | nil =>
      by_cases hother : other = slot
      · simp [place, hother]
      · rw [place, hskip _ _ hother, if_neg hother]
  | cons entry rest ih =>
      rw [place]
      by_cases hentry : entry.1 = slot
      · rw [if_pos hentry]
        by_cases hother : other = slot
        · simp [hother]
        · rw [if_neg hother, hskip _ _ hother, hskip _ _ (hentry ▸ hother)]
      · rw [if_neg hentry]
        by_cases hfirst : other = entry.1
        · subst hfirst
          rw [if_neg hentry, List.lookup_cons, List.lookup_cons, beq_self_eq_true]
        · rw [hskip _ _ hfirst, hskip _ _ hfirst]
          exact ih

theorem get?_touch (shelf : Shelf α) (slot other : Slot) :
    (shelf.touch slot).get? other = shelf.get? other := by
  rw [touch]
  split
  next => rfl
  next hnone =>
    rw [get?_set]
    split
    next heq =>
      rw [heq, get?, Option.not_isSome_iff_eq_none.mp hnone]
      rfl
    next => rfl

/-- Whatever is put into a slot is held besides what is held when the slot is empty. -/
theorem perm_held_set (shelf : Shelf α) (slot : Slot) (value : Option α) :
    (shelf.set slot value).held.Perm (value.toList ++ (shelf.set slot none).held) := by
  obtain ⟨entries⟩ := shelf
  simp only [held, set]
  induction entries with
  | nil => cases value <;> exact List.Perm.refl _
  | cons entry rest ih =>
      rw [place, place]
      by_cases hentry : entry.1 = slot
      · rw [if_pos hentry, if_pos hentry]
        cases value <;> exact List.Perm.refl _
      · rw [if_neg hentry, if_neg hentry]
        cases hvalue : entry.2 with
        | none =>
            rw [List.filterMap_cons_none hvalue, List.filterMap_cons_none hvalue]
            exact ih
        | some old =>
            rw [List.filterMap_cons_some hvalue, List.filterMap_cons_some hvalue]
            exact (ih.cons old).trans List.perm_middle.symm

/-- What a slot holds is held besides what is held when the slot is empty. -/
theorem perm_held (shelf : Shelf α) (slot : Slot) :
    shelf.held.Perm ((shelf.get? slot).toList ++ (shelf.set slot none).held) := by
  obtain ⟨entries⟩ := shelf
  simp only [held, set, get?]
  induction entries with
  | nil => exact List.Perm.refl _
  | cons entry rest ih =>
      rw [place, List.lookup_cons]
      by_cases hentry : entry.1 = slot
      · rw [if_pos hentry, beq_iff_eq.mpr hentry.symm]
        obtain ⟨_, value⟩ := entry
        cases value <;> exact List.Perm.refl _
      · rw [if_neg hentry, beq_eq_false_iff_ne.mpr (Ne.symm hentry)]
        cases hvalue : entry.2 with
        | none =>
            rw [List.filterMap_cons_none hvalue, List.filterMap_cons_none hvalue]
            exact ih
        | some old =>
            rw [List.filterMap_cons_some hvalue, List.filterMap_cons_some hvalue]
            exact (ih.cons old).trans List.perm_middle.symm

theorem toList_get?_subset (shelf : Shelf α) (slot : Slot) :
    (shelf.get? slot).toList ⊆ shelf.held :=
  fun _ hvalue => (shelf.perm_held slot).mem_iff.mpr (List.mem_append_left _ hvalue)

/-- Listing a slot puts nothing into it. -/
theorem held_touch (shelf : Shelf α) (slot : Slot) : (shelf.touch slot).held = shelf.held := by
  rw [touch]
  cases hlookup : shelf.entries.lookup slot with
  | some value => rfl
  | none =>
      obtain ⟨entries⟩ := shelf
      simp only [held, set] at hlookup ⊢
      induction entries with
      | nil => rfl
      | cons entry rest ih =>
          rw [List.lookup_cons] at hlookup
          by_cases hentry : entry.1 = slot
          · rw [hentry, beq_self_eq_true] at hlookup
            cases hlookup
          · rw [beq_eq_false_iff_ne.mpr (Ne.symm hentry)] at hlookup
            have hrest := ih hlookup
            simp only [Option.isSome_none, Bool.false_eq_true, if_false] at hrest ⊢
            rw [place, if_neg hentry, List.filterMap_cons, List.filterMap_cons, hrest]

/-- Two shelves list the same slots, and what the slots hold is related. -/
def Related (R : α → β → Prop) (shelf : Shelf α) (shelf' : Shelf β) : Prop :=
  List.Forall₂ (fun entry entry' => entry.1 = entry'.1 ∧ Option.Rel R entry.2 entry'.2)
    shelf.entries shelf'.entries

namespace Related

variable {R : α → β → Prop} {shelf : Shelf α} {shelf' : Shelf β}

theorem set (hrelated : Related R shelf shelf') (slot : Slot) {value : Option α}
    {value' : Option β} (hvalue : Option.Rel R value value') :
    Related R (shelf.set slot value) (shelf'.set slot value') := by
  obtain ⟨entries⟩ := shelf
  obtain ⟨entries'⟩ := shelf'
  simp only [Related, Shelf.set] at hrelated ⊢
  induction hrelated with
  | nil => exact .cons ⟨rfl, hvalue⟩ .nil
  | @cons entry entry' _ _ hfirst hrest ih =>
      rw [place, place, ← hfirst.1]
      split
      next => exact .cons ⟨rfl, hvalue⟩ hrest
      next => exact .cons hfirst ih

theorem lookup (hrelated : Related R shelf shelf') (slot : Slot) :
    Option.Rel (Option.Rel R) (shelf.entries.lookup slot) (shelf'.entries.lookup slot) := by
  obtain ⟨entries⟩ := shelf
  obtain ⟨entries'⟩ := shelf'
  simp only [Related] at hrelated ⊢
  induction hrelated with
  | nil => exact .none
  | @cons entry entry' _ _ hfirst hrest ih =>
      rw [List.lookup_cons, List.lookup_cons, ← hfirst.1]
      split
      next => exact .some hfirst.2
      next => exact ih

theorem get? (hrelated : Related R shelf shelf') (slot : Slot) :
    Option.Rel R (shelf.get? slot) (shelf'.get? slot) := by
  rw [Shelf.get?, Shelf.get?]
  rcases optionRel_cases
    (hrelated.lookup slot) with ⟨_, _, hfound, hfound', hvalue⟩ | ⟨hfound, hfound'⟩
  · rw [hfound, hfound']
    exact hvalue
  · rw [hfound, hfound']
    exact .none

theorem touch (hrelated : Related R shelf shelf') (slot : Slot) :
    Related R (shelf.touch slot) (shelf'.touch slot) := by
  rw [Shelf.touch, Shelf.touch]
  rcases optionRel_cases (hrelated.lookup slot) with ⟨_, _, hfound, hfound', _⟩ | ⟨hfound, hfound'⟩
  · rw [hfound, hfound']
    exact hrelated
  · rw [hfound, hfound']
    exact hrelated.set slot .none

theorem registers_eq (hrelated : Related R shelf shelf') : shelf.registers = shelf'.registers := by
  obtain ⟨entries⟩ := shelf
  obtain ⟨entries'⟩ := shelf'
  simp only [Related, registers] at hrelated ⊢
  induction hrelated with
  | nil => rfl
  | cons hfirst _ ih => rw [List.filterMap_cons, List.filterMap_cons, ih, hfirst.1]

theorem imp {S : α → β → Prop} (hrelated : Related R shelf shelf')
    (himp : ∀ value ∈ shelf.held, ∀ value', R value value' → S value value') :
    Related S shelf shelf' := by
  obtain ⟨entries⟩ := shelf
  obtain ⟨entries'⟩ := shelf'
  simp only [Related, held] at hrelated himp ⊢
  induction hrelated with
  | nil => exact .nil
  | @cons entry entry' rest _ hfirst hrest ih =>
      obtain ⟨slot, value⟩ := entry
      obtain ⟨slot', value'⟩ := entry'
      obtain ⟨hslot, hvalue⟩ := hfirst
      cases hvalue with
      | none => exact .cons ⟨hslot, .none⟩ (ih himp)
      | some hvalue =>
          exact .cons ⟨hslot, .some (himp _ List.mem_cons_self _ hvalue)⟩
            (ih fun other hother => himp other (List.mem_cons_of_mem _ hother))

end Related

end Shelf

/-! ## Edits of private trees -/

namespace PrivateStore

variable {store : PrivateStore} {place : Place} {edit : Tree → Tree}

theorem editAt_of_view?_eq_none (hnone : store.view? place = none) :
    store.editAt place edit = store := by
  rw [view?] at hnone
  rw [editAt]
  cases hheld : store.shelf.get? place.slot with
  | none => rfl
  | some tree =>
      rw [hheld, Option.bind_some] at hnone
      simp only [Tree.editAt_of_subtree?_eq_none hnone, Shelf.set_self hheld]

theorem editAt_id (store : PrivateStore) (place : Place) : store.editAt place id = store := by
  rw [editAt]
  cases hheld : store.shelf.get? place.slot with
  | none => rfl
  | some tree => simp only [Tree.editAt_id, Shelf.set_self hheld]

end PrivateStore

theorem incoming_eq_guests (row : RowChange Ref) : SharedStore.incoming row = row.guests := by
  cases row <;> rfl

/-! ## Slots that are left alone -/

/-- A slot holds the very node that it held, which shows what it showed. -/
structure SharedStore.Stays (store after : SharedStore) (slot : Slot) : Prop where
  get?_eq : after.shelf.get? slot = store.shelf.get? slot
  spares : store.heap.Spares after.heap [] (store.shelf.get? slot).toList

namespace SharedStore.Stays

variable {store after : SharedStore} {slot : Slot}

theorem refl (store : SharedStore) (slot : Slot) : store.Stays store slot :=
  ⟨rfl, Heap.Spares.refl _ _ _⟩

theorem trans {last : SharedStore} (hfirst : store.Stays after slot)
    (hsecond : after.Stays last slot) :
    store.Stays last slot where
  get?_eq := hsecond.get?_eq.trans hfirst.get?_eq
  spares := hfirst.spares.trans (hfirst.get?_eq ▸ hsecond.spares)

/-- All places in the slot have the nodes that they had. -/
theorem ref?_eq (hstays : store.Stays after slot) (path : List Nat) :
    after.ref? ⟨slot, path⟩ = store.ref? ⟨slot, path⟩ := by
  rw [ref?, ref?, hstays.get?_eq]
  cases hheld : store.shelf.get? slot with
  | none => rfl
  | some ref =>
      have hspares := hstays.spares
      rw [hheld] at hspares
      exact hspares.find?_eq List.mem_cons_self path

/-- Other slots stay when something is put into a slot. -/
theorem set_shelf {other : Slot} (hother : other ≠ slot) (value : Option Ref) :
    store.Stays { store with shelf := store.shelf.set slot value } other :=
  ⟨(Shelf.get?_set ..).trans (if_neg hother), Heap.Spares.refl _ _ _⟩

theorem of_spares {heap : Heap} {holders : List Ref} (hspares : store.heap.Spares heap [] holders)
    (hheld : store.shelf.held ⊆ holders) : store.Stays { store with heap } slot where
  get?_eq := rfl
  spares := hspares.of_subset (List.Subset.refl _)
    (List.Subset.trans (store.shelf.toList_get?_subset slot) hheld)

end SharedStore.Stays

/-! ## Mirroring -/

/-- A shared store mirrors a private one when every holder is counted and the slots show the trees
that the private store keeps. References in `extra` are held besides. -/
structure Mirrors (store : SharedStore) (plain : PrivateStore) (extra : List Ref) : Prop where
  counted : store.heap.Counted [] (extra ++ store.shelf.held)
  related : Shelf.Related store.heap.Shows store.shelf plain.shelf

namespace Mirrors

variable {store : SharedStore} {plain : PrivateStore} {extra : List Ref}

theorem empty : Mirrors {} {} [] where
  counted :=
    { count_eq := fun ref => by
        have hnone : ¬({} : Heap).InBounds ref := Nat.not_lt_zero ref
        change (({} : Heap).cell ref).count = 0
        rw [Heap.cell_of_not_inBounds hnone]
        rfl
      sole := fun _ href => absurd href List.not_mem_nil
      shown := fun ref _ hbounds => absurd hbounds (Nat.not_lt_zero ref)
      spent := fun ref _ => Heap.children_of_not_inBounds (Nat.not_lt_zero ref) }
  related := .nil

theorem perm {others : List Ref} (hmirrors : Mirrors store plain extra)
    (hperm : extra.Perm others) : Mirrors store plain others :=
  ⟨hmirrors.counted.perm (hperm.append_right _), hmirrors.related⟩

/-- Both stores have a node at a place, which shows the tree there, or neither has. -/
theorem ref? (hmirrors : Mirrors store plain extra) (place : Place) :
    Option.Rel store.heap.Shows (store.ref? place) (plain.view? place) := by
  rw [SharedStore.ref?, PrivateStore.view?]
  rcases optionRel_cases (hmirrors.related.get? place.slot) with
    ⟨_, _, hheld, hheld', hshows⟩ | ⟨hheld, hheld'⟩
  · rw [hheld, hheld', Option.bind_some, Option.bind_some]
    rcases hshows.find? place.path with ⟨found, sub, hfound, hsub, hshown⟩ | ⟨hfound, hsub⟩
    · rw [hfound, hsub]
      exact .some hshown
    · rw [hfound, hsub]
      exact .none
  · rw [hheld, hheld']
    exact .none

theorem view?_eq (hmirrors : Mirrors store plain extra) (place : Place) :
    store.view? place = plain.view? place := by
  rw [SharedStore.view?]
  rcases optionRel_cases (hmirrors.ref? place) with
    ⟨_, _, hfound, hfound', hshows⟩ | ⟨hfound, hfound'⟩
  · rw [hfound, hfound', Option.map_some, hshows.view_eq]
  · rw [hfound, hfound']
    rfl

/-- What a heap gives to a caller is held besides; the slots show what they showed. -/
theorem of_gives (hmirrors : Mirrors store plain extra) {heap : Heap} {refs rest : List Ref}
    {trees : List Tree}
    (hgives : store.heap.Gives heap [] (rest ++ store.shelf.held) refs trees) :
    Mirrors { store with heap } plain (refs ++ rest) where
  counted := by
    have hcounted := hgives.counted
    rwa [← List.append_assoc] at hcounted
  related := hmirrors.related.imp fun ref href tree hshows =>
    hgives.spares.shows ref (List.mem_append_right _ href) tree hshows

/-- Putting something that is held besides into a slot. -/
theorem put {ref : Option Ref} {tree : Option Tree} (slot : Slot)
    (hmirrors : Mirrors store plain (ref.toList ++ extra))
    (hshows : Option.Rel store.heap.Shows ref tree) :
    Mirrors (store.put slot ref) ⟨plain.shelf.set slot tree⟩ extra ∧
      ∀ other, other ≠ slot → store.Stays (store.put slot ref) other := by
  have hrelated := hmirrors.related.set slot hshows
  have hperm : (ref.toList ++ extra ++ store.shelf.held).Perm
      ((store.shelf.get? slot).toList ++ (extra ++ (store.shelf.set slot ref).held)) := by
    have hset := store.shelf.perm_held_set slot ref
    have hheld := store.shelf.perm_held slot
    rw [List.perm_iff_count] at hset hheld ⊢
    intro other
    have hset := hset other
    have hheld := hheld other
    simp only [List.count_append] at hset hheld ⊢
    omega
  obtain ⟨hcounted, hspares⟩ := (hmirrors.counted.perm hperm).release
  refine ⟨⟨hcounted, ?_⟩, fun other hother => ?_⟩
  · exact hrelated.imp fun other hother tree hshown =>
      hspares.shows other (List.mem_append_right _ hother) tree hshown
  · exact (SharedStore.Stays.set_shelf hother ref).trans
      (.of_spares hspares (List.subset_append_right _ _))

/-- Taking what a slot holds out of it. -/
theorem takeOut (hmirrors : Mirrors store plain extra) (slot : Slot) :
    Mirrors { store with shelf := store.shelf.set slot none } ⟨plain.shelf.set slot none⟩
      ((store.shelf.get? slot).toList ++ extra) where
  counted := by
    refine hmirrors.counted.perm ?_
    have hheld := (store.shelf.perm_held slot).append_left extra
    rw [List.append_assoc]
    exact hheld.trans (List.perm_append_comm_assoc _ _ _)
  related := hmirrors.related.set slot .none

/-- Counting another holder of a node. -/
theorem retain {ref : Ref} {tree : Tree} (hmirrors : Mirrors store plain extra)
    (hshows : store.heap.Shows ref tree) :
    Mirrors { store with heap := store.heap.retain ref } plain (ref :: extra) ∧
      store.heap.Spares (store.heap.retain ref) [] (extra ++ store.shelf.held) := by
  obtain ⟨hcounted, hspares⟩ := hmirrors.counted.retain List.not_mem_nil hshows.inBounds
  have hrelated : Shelf.Related (store.heap.retain ref).Shows store.shelf plain.shelf :=
    hmirrors.related.imp fun _ _ _ hshown => hshown.setCell_count _ _
  exact ⟨⟨hcounted, hrelated⟩, hspares⟩

/-! ## What comes in -/

/-- Both stores take in the same tree; the shared one has a holder counted for where it goes. -/
theorem resolve (hmirrors : Mirrors store plain extra) (origin : Origin) :
    Mirrors (SharedStore.resolve origin store).2 (PrivateStore.resolve origin plain).2
        ((SharedStore.resolve origin store).1 :: extra) ∧
      (SharedStore.resolve origin store).2.heap.Shows (SharedStore.resolve origin store).1
        (PrivateStore.resolve origin plain).1 ∧
      store.heap.Spares (SharedStore.resolve origin store).2.heap [] extra ∧
      ∀ slot, origin ≠ .held slot → store.Stays (SharedStore.resolve origin store).2 slot := by
  have hnew : ∀ tree,
      Mirrors { store with heap := (store.heap.allocTree tree).2 } plain
          ((store.heap.allocTree tree).1 :: extra) ∧
        (store.heap.allocTree tree).2.Shows (store.heap.allocTree tree).1 tree ∧
        store.heap.Spares (store.heap.allocTree tree).2 [] extra ∧
        ∀ slot, store.Stays { store with heap := (store.heap.allocTree tree).2 } slot := by
    intro tree
    have hgives := Heap.gives_allocTree tree hmirrors.counted
    exact ⟨hmirrors.of_gives hgives, hgives.shows_head,
      hgives.spares.of_subset (List.Subset.refl _) (List.subset_append_left _ _),
      fun slot => .of_spares hgives.spares (List.subset_append_right _ _)⟩
  cases origin with
  | fresh tree =>
      obtain ⟨hafter, hshows, hspares, hstays⟩ := hnew tree
      exact ⟨hafter, hshows, hspares, fun slot _ => hstays slot⟩
  | held source =>
      have htaken := hmirrors.takeOut source
      simp only [SharedStore.resolve, PrivateStore.resolve]
      rcases optionRel_cases (hmirrors.related.get? source) with
        ⟨_, _, hheld, hheld', hshows⟩ | ⟨hheld, hheld'⟩
      · rw [hheld] at htaken
        rw [hheld, hheld']
        exact ⟨htaken, hshows, Heap.Spares.refl _ _ _, fun slot hslot =>
          .set_shelf (fun hsame => hslot (congrArg Origin.held hsame.symm)) none⟩
      · rw [hheld, hheld']
        obtain ⟨hafter, hshows, hspares, hstays⟩ := hnew .blank
        exact ⟨hafter, hshows, hspares, fun slot _ => hstays slot⟩
  | shared place =>
      simp only [SharedStore.resolve, PrivateStore.resolve]
      rcases optionRel_cases (hmirrors.ref? place) with
        ⟨_, _, hfound, hfound', hshows⟩ | ⟨hfound, hfound'⟩
      · rw [hfound, hfound']
        obtain ⟨hretained, hspares⟩ := hmirrors.retain hshows
        exact ⟨hretained, hshows.setCell_count _ _,
          hspares.of_subset (List.Subset.refl _) (List.subset_append_left _ _),
          fun slot _ => .of_spares hspares (List.subset_append_right _ _)⟩
      · rw [hfound, hfound']
        obtain ⟨hafter, hshows, hspares, hstays⟩ := hnew .blank
        exact ⟨hafter, hshows, hspares, fun slot _ => hstays slot⟩

theorem resolveAll (hmirrors : Mirrors store plain extra) (origins : List Origin) :
    Mirrors (RowChange.resolveAll SharedStore.resolve origins store).2
        (RowChange.resolveAll PrivateStore.resolve origins plain).2
        ((RowChange.resolveAll SharedStore.resolve origins store).1 ++ extra) ∧
      List.Forall₂ (RowChange.resolveAll SharedStore.resolve origins store).2.heap.Shows
        (RowChange.resolveAll SharedStore.resolve origins store).1
        (RowChange.resolveAll PrivateStore.resolve origins plain).1 ∧
      store.heap.Spares (RowChange.resolveAll SharedStore.resolve origins store).2.heap [] extra ∧
      ∀ slot, .held slot ∉ origins →
        store.Stays (RowChange.resolveAll SharedStore.resolve origins store).2 slot := by
  induction origins generalizing store plain extra with
  | nil => exact ⟨hmirrors, .nil, Heap.Spares.refl _ _ _, fun slot _ => .refl store slot⟩
  | cons origin rest ih =>
      obtain ⟨hfirst, hshows, hspares, hstays⟩ := hmirrors.resolve origin
      obtain ⟨hrest, hforall, hspares', hstays'⟩ := ih hfirst
      rw [RowChange.resolveAll, RowChange.resolveAll]
      refine ⟨hrest.perm List.perm_middle,
        .cons (hspares'.shows _ List.mem_cons_self _ hshows) hforall,
        hspares.trans (hspares'.of_subset (List.Subset.refl _) (List.subset_cons_self _ _)),
        fun slot hslot => ?_⟩
      rw [List.mem_cons, not_or] at hslot
      exact (hstays slot (Ne.symm hslot.1)).trans (hstays' slot hslot.2)

/-- Both stores carry over what comes in with a change. -/
theorem resolveRow (hmirrors : Mirrors store plain []) (row : RowChange Origin) :
    Mirrors (row.resolve SharedStore.resolve store).2 (row.resolve PrivateStore.resolve plain).2
        (row.resolve SharedStore.resolve store).1.guests ∧
      Heap.Relates (row.resolve SharedStore.resolve store).2.heap.Shows
        (row.resolve SharedStore.resolve store).1 (row.resolve PrivateStore.resolve plain).1 ∧
      ∀ slot, .held slot ∉ row.guests →
        store.Stays (row.resolve SharedStore.resolve store).2 slot := by
  have hself : ∀ slot, store.Stays store slot := SharedStore.Stays.refl store
  cases row with
  | keep => exact ⟨hmirrors, .keep, fun slot _ => hself slot⟩
  | insert pos child =>
      obtain ⟨hafter, hshows, _, hstays⟩ := hmirrors.resolve child.node
      exact ⟨hafter, .insert pos child.stamp hshows, fun slot hslot =>
        hstays slot fun hheld => hslot (List.mem_singleton.mpr hheld.symm)⟩
  | replace pos child =>
      obtain ⟨hafter, hshows, _, hstays⟩ := hmirrors.resolve child.node
      exact ⟨hafter, .replace pos child.stamp hshows, fun slot hslot =>
        hstays slot fun hheld => hslot (List.mem_singleton.mpr hheld.symm)⟩
  | remove pos => exact ⟨hmirrors, .remove pos, fun slot _ => hself slot⟩
  | move source target => exact ⟨hmirrors, .move source target, fun slot _ => hself slot⟩
  | label pos key => exact ⟨hmirrors, .label pos key, fun slot _ => hself slot⟩
  | relabel keys => exact ⟨hmirrors, .relabel keys, fun slot _ => hself slot⟩
  | refill origins =>
      obtain ⟨hafter, hforall, _, hstays⟩ := hmirrors.resolveAll origins
      rw [List.append_nil] at hafter
      exact ⟨hafter, .refill hforall, hstays⟩

/-! ## Edits -/

/-- A write at a place, for which the nodes in `extra` are meant, mirrors an edit of the tree
there. -/
theorem editAt {edit : Heap → Ref → Heap} {change : Tree → Tree} (ready : Heap → Prop)
    (hready : ∀ heap after opened, heap.Spares after opened extra → ready heap → ready after)
    (hedit : ∀ heap opened holders ref tree, heap.Counted opened (ref :: (extra ++ holders)) →
      (heap.cell ref).count = 1 → heap.Shows ref tree → ready heap →
        heap.Gives (edit heap ref) opened holders [ref] [change tree])
    (hmirrors : Mirrors store plain extra) (hnow : ready store.heap) (place : Place)
    (hreach : (store.ref? place).isSome ∨ extra = []) :
    Mirrors (store.editAt place edit) (plain.editAt place change) [] ∧
      ∀ slot, slot ≠ place.slot → store.Stays (store.editAt place edit) slot := by
  rw [SharedStore.editAt, PrivateStore.editAt]
  rw [SharedStore.ref?] at hreach
  rcases optionRel_cases (hmirrors.related.get? place.slot) with
    ⟨ref, tree, hheld, hheld', hshows⟩ | ⟨hheld, hheld'⟩
  · rw [hheld, hheld']
    rw [hheld, Option.bind_some] at hreach
    have hperm := store.shelf.perm_held place.slot
    rw [hheld] at hperm
    have hcounted : store.heap.Counted []
        (ref :: (extra ++ (store.shelf.set place.slot none).held)) :=
      hmirrors.counted.perm ((hperm.append_left extra).trans List.perm_middle)
    have hpath : (tree.subtree? place.path).isSome ∨ extra = [] := by
      rcases hshows.find? place.path with ⟨_, _, _, hsub, _⟩ | ⟨hfound, _⟩
      · rw [hsub]
        exact .inl rfl
      · rw [hfound] at hreach
        exact .inr (hreach.resolve_left Bool.false_ne_true)
    -- the other slots keep their trees, since the edit spares what they hold
    have hgives := hcounted.editAlong hready hedit place.path hshows hnow hpath
    have hrelated := (hmirrors.related.set place.slot .none).imp hgives.spares.shows
    have hset := hrelated.set place.slot (.some hgives.shows_head)
    rw [Shelf.set_set, Shelf.set_set] at hset
    refine ⟨⟨hgives.counted.perm (store.shelf.perm_held_set place.slot (some _)).symm, hset⟩,
      fun slot hslot => ⟨(Shelf.get?_set ..).trans (if_neg hslot), ?_⟩⟩
    have hmem := (store.shelf.set place.slot none).toList_get?_subset slot
    rw [Shelf.get?_set, if_neg hslot] at hmem
    exact hgives.spares.of_subset (List.Subset.refl _) hmem
  · rw [hheld, hheld']
    rw [hheld] at hreach
    obtain rfl : extra = [] := hreach.resolve_left Bool.false_ne_true
    exact ⟨hmirrors, fun slot _ => .refl store slot⟩

/-- Changing the node at a place. -/
theorem change (hmirrors : Mirrors store plain []) (place : Place) (change : Change Origin) :
    Mirrors (SharedStore.answer (.change place change) store).2
        (PrivateStore.answer (.change place change) plain).2 [] ∧
      ∀ slot, slot ≠ place.slot → .held slot ∉ change.row.guests →
        store.Stays (SharedStore.answer (.change place change) store).2 slot := by
  obtain ⟨hresolved, hrow, hstays⟩ := hmirrors.resolveRow change.row
  simp only [SharedStore.answer, PrivateStore.answer]
  generalize change.row.resolve SharedStore.resolve store = shared at hresolved hrow hstays ⊢
  generalize change.row.resolve PrivateStore.resolve plain = owned at hresolved hrow ⊢
  obtain ⟨row, store'⟩ := shared
  obtain ⟨row', plain'⟩ := owned
  simp only at hresolved hrow hstays ⊢
  split
  next hfound =>
    refine And.imp_right
      (fun hedited slot hslot hguests => (hstays slot hguests).trans (hedited slot hslot))
      (hresolved.editAt (fun heap => Heap.Relates heap.Shows row row') ?_ ?_ hrow place
        (.inl hfound))
    · intro heap after opened hspares hready
      exact hready.of_guests hspares.shows
    · intro heap opened holders ref tree hcounted hone hshows hready
      exact hcounted.apply hone hshows hready
  next hfound =>
    -- with nowhere to go, what has come in is let go again
    have hnone : plain'.view? place = none := by
      rcases optionRel_cases (hresolved.ref? place) with ⟨_, _, hsome, _, _⟩ | ⟨_, hnone⟩
      · rw [hsome] at hfound
        exact absurd rfl hfound
      · exact hnone
    rw [PrivateStore.editAt_of_view?_eq_none hnone, incoming_eq_guests]
    obtain ⟨hcounted, hspares⟩ := hresolved.counted.release
    exact ⟨⟨hcounted, hresolved.related.imp hspares.shows⟩, fun slot _ hguests =>
      (hstays slot hguests).trans (.of_spares hspares (List.Subset.refl _))⟩

/-- Making the node at a place belong to its holder alone. -/
theorem own (hmirrors : Mirrors store plain []) (place : Place) :
    Mirrors (SharedStore.answer (.own place) store).2
      (PrivateStore.answer (.own place) plain).2 [] ∧
      ∀ slot, slot ≠ place.slot → store.Stays (SharedStore.answer (.own place) store).2 slot := by
  have hedit := hmirrors.editAt (fun _ => True) (fun _ _ _ _ _ => trivial)
    (fun _ opened holders _ _ hcounted _ hshows _ =>
      ⟨hcounted, Heap.Spares.refl _ opened holders, .cons hshows .nil⟩) trivial place (.inr rfl)
  rwa [show (fun tree : Tree => tree) = id from rfl, PrivateStore.editAt_id] at hedit

/-- The shared store goes on mirroring the private one when both have answered a request. -/
theorem answer {α : Type} (hmirrors : Mirrors store plain []) (request : Request α) :
    Mirrors (SharedStore.answer request store).2 (PrivateStore.answer request plain).2 [] := by
  cases request with
  | outline place => exact hmirrors
  | view place => exact hmirrors
  | alike first second => exact hmirrors
  | own place => exact (hmirrors.own place).1
  | change place change => exact (hmirrors.change place change).1
  | hold slot tree =>
      have hgives := Heap.gives_allocTree tree hmirrors.counted
      exact (Mirrors.put slot (hmirrors.of_gives hgives) (.some hgives.shows_head)).1
  | share place slot =>
      simp only [SharedStore.answer, PrivateStore.answer]
      rcases optionRel_cases (hmirrors.ref? place) with
        ⟨ref, _, hfound, hfound', hshows⟩ | ⟨hfound, hfound'⟩
      · rw [hfound, hfound']
        have hretained : Mirrors _ plain ((some ref).toList ++ []) := (hmirrors.retain hshows).1
        exact (hretained.put slot (.some (hshows.setCell_count _ _))).1
      · rw [hfound, hfound']
        exact (hmirrors.put slot .none).1
  | take source target =>
      have htaken := hmirrors.takeOut source
      exact (htaken.put target (hmirrors.related.get? source)).1
  | release slot => exact (hmirrors.put slot .none).1
  | touch slot =>
      exact ⟨hmirrors.counted.perm (.of_eq (store.shelf.held_touch slot).symm),
        hmirrors.related.touch slot⟩
  | holders slot => exact hmirrors
  | same first second => exact hmirrors
  | registers => exact hmirrors

end Mirrors

/-- A request puts nothing into a slot, takes nothing out of it and does not write to it. -/
def Request.Avoids (slot : Slot) {α : Type} : Request α → Prop
  | .own place => slot ≠ place.slot
  | .change place made => slot ≠ place.slot ∧ .held slot ∉ made.row.guests
  | .hold target _ => slot ≠ target
  | .share _ target => slot ≠ target
  | .take source target => slot ≠ source ∧ slot ≠ target
  | .release target => slot ≠ target
  | _ => True

/-- Whoever avoids a slot leaves it its very node. -/
theorem Mirrors.stays {store : SharedStore} {plain : PrivateStore}
    (hmirrors : Mirrors store plain []) {α : Type} {request : Request α} {slot : Slot}
    (havoids : request.Avoids slot) :
    store.Stays (SharedStore.answer request store).2 slot := by
  cases request with
  | own place => exact (hmirrors.own place).2 slot havoids
  | change place made => exact (hmirrors.change place made).2 slot havoids.1 havoids.2
  | hold target tree =>
      have hgives := Heap.gives_allocTree tree hmirrors.counted
      have hput :=
        (Mirrors.put target (hmirrors.of_gives hgives) (.some hgives.shows_head)).2 slot havoids
      exact .trans (.of_spares hgives.spares (List.subset_append_right _ _)) hput
  | share place target =>
      simp only [SharedStore.answer]
      rcases optionRel_cases (hmirrors.ref? place) with
        ⟨ref, _, hfound, hfound', hshows⟩ | ⟨hfound, hfound'⟩
      · rw [hfound]
        obtain ⟨hretained, hspares⟩ := hmirrors.retain hshows
        have hretained' : Mirrors _ plain ((some ref).toList ++ []) := hretained
        have hput := (hretained'.put target (.some (hshows.setCell_count _ _))).2 slot havoids
        exact .trans (.of_spares hspares (List.subset_append_right _ _)) hput
      · rw [hfound]
        exact (hmirrors.put target .none).2 slot havoids
  | take source target =>
      have hput :=
        ((hmirrors.takeOut source).put target (hmirrors.related.get? source)).2 slot havoids.2
      exact (SharedStore.Stays.set_shelf havoids.1 none).trans hput
  | release target => exact (hmirrors.put target .none).2 slot havoids
  | touch target => exact ⟨Shelf.get?_touch _ target slot, Heap.Spares.refl _ _ _⟩
  | _ => exact .refl store slot

/-- Whether a request asks for something else than sharing itself. -/
def Request.Visible {α : Type} : Request α → Prop
  | .holders _ => False
  | .same .. => False
  | _ => True

/-- Both stores answer a request alike, unless it is about sharing itself. -/
theorem Mirrors.answer_eq {store : SharedStore} {plain : PrivateStore}
    (hmirrors : Mirrors store plain []) {α : Type} {request : Request α}
    (hvisible : request.Visible) :
    (SharedStore.answer request store).1 = (PrivateStore.answer request plain).1 := by
  cases request with
  | outline place =>
      simp only [SharedStore.answer, PrivateStore.answer]
      rcases optionRel_cases (hmirrors.ref? place) with
        ⟨_, _, hfound, hfound', hshows⟩ | ⟨hfound, hfound'⟩
      · rw [hfound, hfound', Option.map_some, Option.map_some, hshows.outline_eq]
      · rw [hfound, hfound']
        rfl
  | view place =>
      simp only [SharedStore.answer, PrivateStore.answer]
      exact hmirrors.view?_eq place
  | alike first second =>
      simp only [SharedStore.answer, PrivateStore.answer]
      rcases optionRel_cases (hmirrors.ref? first) with
        ⟨_, _, hfound, hfound', hshows⟩ | ⟨hfound, hfound'⟩
      · rcases optionRel_cases (hmirrors.ref? second) with
          ⟨_, _, hother, hother', hshows'⟩ | ⟨hother, hother'⟩
        · rw [hfound, hfound', hother, hother']
          exact hshows.alike_eq hshows'
        · rw [hfound, hfound', hother, hother']
      · rw [hfound, hfound']
  | own place => rfl
  | change place change => rfl
  | hold slot tree => rfl
  | share place slot => rfl
  | take source target => rfl
  | release slot => rfl
  | touch slot => rfl
  | holders slot => exact hvisible.elim
  | same first second => exact hvisible.elim
  | registers => exact hmirrors.related.registers_eq

end KeyedTree
