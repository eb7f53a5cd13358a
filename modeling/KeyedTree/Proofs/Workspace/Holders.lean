import KeyedTree.Proofs.Heap.Reach
import KeyedTree.Proofs.Workspace.Mirror

/-! # The holders of a node

Between the steps of a script the argument slot is empty, and every node is held by registers and by
child slots of nodes that are reached from a register. The counts say how many these are. They
depend on nothing but the nodes that are found at the places below the registers.
-/

namespace KeyedTree

/-! ## Slots -/

namespace Shelf

variable {α : Type}

/-- The slots that are listed. -/
def slots (shelf : Shelf α) : List Slot :=
  shelf.entries.map Prod.fst

theorem slots_set (shelf : Shelf α) (slot : Slot) (value : Option α) :
    (shelf.set slot value).slots = shelf.slots ∨
      slot ∉ shelf.slots ∧ (shelf.set slot value).slots = shelf.slots ++ [slot] := by
  obtain ⟨entries⟩ := shelf
  simp only [slots, set]
  induction entries with
  | nil => exact .inr ⟨List.not_mem_nil, rfl⟩
  | cons entry rest ih =>
      rw [place]
      by_cases hentry : entry.1 = slot
      · rw [if_pos hentry, List.map_cons, List.map_cons, hentry]
        exact .inl rfl
      · rw [if_neg hentry, List.map_cons, List.map_cons]
        rcases ih with hsame | ⟨hnew, hmore⟩
        · exact .inl (congrArg _ hsame)
        · exact .inr ⟨List.not_mem_cons_of_ne_of_not_mem (Ne.symm hentry) hnew, congrArg _ hmore⟩

theorem nodup_slots_set {shelf : Shelf α} (hslots : shelf.slots.Nodup) (slot : Slot)
    (value : Option α) :
    (shelf.set slot value).slots.Nodup := by
  rcases shelf.slots_set slot value with hsame | ⟨hnew, hmore⟩
  · rwa [hsame]
  · rw [hmore, ← List.concat_eq_append]
    exact hslots.concat hnew

theorem nodup_slots_touch {shelf : Shelf α} (hslots : shelf.slots.Nodup) (slot : Slot) :
    (shelf.touch slot).slots.Nodup := by
  rw [touch]
  split
  next => exact hslots
  next => exact nodup_slots_set hslots slot none

theorem mem_entries_of_get? {shelf : Shelf α} {slot : Slot} {value : α}
    (hget : shelf.get? slot = some value) : (slot, some value) ∈ shelf.entries := by
  obtain ⟨front, back, hentries, _⟩ := List.lookup_eq_some_iff.mp (Option.join_eq_some_iff.mp hget)
  rw [hentries]
  exact List.mem_append_right _ List.mem_cons_self

/-- Where no slot is listed twice, every entry says what its slot holds. -/
theorem get?_of_mem {shelf : Shelf α} (hslots : shelf.slots.Nodup) {entry : Slot × Option α}
    (hentry : entry ∈ shelf.entries) : shelf.get? entry.1 = entry.2 := by
  obtain ⟨front, back, hentries⟩ := List.append_of_mem hentry
  have hfront : ∀ other ∈ front, (entry.1 != other.1) = true := by
    intro other hother
    rw [slots, hentries, List.map_append, List.map_cons] at hslots
    have hapart := (List.nodup_append.mp hslots).2.2
    exact bne_iff_ne.mpr
      (Ne.symm (hapart _ (List.mem_map_of_mem hother) _ List.mem_cons_self))
  have hlookup : shelf.entries.lookup entry.1 = some entry.2 :=
    List.lookup_eq_some_iff.mpr ⟨front, back, hentries, hfront⟩
  rw [get?, hlookup, Option.join_some]

theorem mem_held_iff {shelf : Shelf α} (hslots : shelf.slots.Nodup) {value : α} :
    value ∈ shelf.held ↔ ∃ slot, shelf.get? slot = some value := by
  constructor
  · intro hvalue
    obtain ⟨entry, hentry, hsome⟩ := List.mem_filterMap.mp hvalue
    exact ⟨entry.1, (get?_of_mem hslots hentry).trans hsome⟩
  · rintro ⟨slot, hget⟩
    exact List.mem_filterMap.mpr ⟨_, mem_entries_of_get? hget, rfl⟩

/-- The registers that hold a value. -/
def holders [DecidableEq α] (shelf : Shelf α) (value : α) : Finset String :=
  shelf.registers.toFinset.filter fun name => shelf.get? (.register name) = some value

theorem mem_holders [DecidableEq α] {shelf : Shelf α} {value : α} {name : String} :
    name ∈ shelf.holders value ↔ shelf.get? (.register name) = some value := by
  rw [holders, Finset.mem_filter, List.mem_toFinset, and_iff_right_iff_imp]
  intro hget
  exact List.mem_filterMap.mpr ⟨_, mem_entries_of_get? hget, rfl⟩

theorem nodup_registers {shelf : Shelf α} (hslots : shelf.slots.Nodup) : shelf.registers.Nodup := by
  refine List.pairwise_filterMap.mpr ((List.pairwise_map.mp hslots).imp ?_)
  rintro ⟨slot, _⟩ ⟨other, _⟩ hne name hname name' hname' rfl
  cases slot with
  | argument => cases hname
  | register first =>
      cases other with
      | argument => cases hname'
      | register second =>
          exact hne
            (congrArg Slot.register ((Option.some.inj hname).trans (Option.some.inj hname').symm))

/-- While the argument slot is empty, a value is held as often as there are registers that hold
it. -/
theorem count_held [DecidableEq α] {shelf : Shelf α} (hslots : shelf.slots.Nodup)
    (hargument : shelf.get? .argument = none) (value : α) :
    shelf.held.count value = (shelf.holders value).card := by
  have hfilter : shelf.holders value =
      (shelf.registers.filter fun name => shelf.get? (.register name) = some value).toFinset := by
    rw [List.toFinset_filter, holders]
    simp only [decide_eq_true_eq]
  rw [hfilter, List.toFinset_card_of_nodup ((nodup_registers hslots).filter _),
    ← List.countP_eq_length_filter, registers, List.countP_filterMap, held, List.count_filterMap]
  refine List.countP_congr fun entry hentry => ?_
  have hget := get?_of_mem hslots hentry
  obtain ⟨slot, held⟩ := entry
  cases slot with
  | argument =>
      obtain rfl : none = held := hargument.symm.trans hget
      simp
  | register name =>
      simp only at hget
      simp [hget]

end Shelf

/-! ## Counts between steps -/

/-- Whatever is found at a place shows a tree. -/
theorem Mirrors.exists_shows {store : SharedStore} {plain : PrivateStore} {extra : List Ref}
    (hmirrors : Mirrors store plain extra) {place : Place} {ref : Ref}
    (hfound : store.ref? place = some ref) : ∃ tree, store.heap.Shows ref tree := by
  rcases optionRel_cases (hmirrors.ref? place) with ⟨_, tree, hsome, _, hshows⟩ | ⟨hnone, _⟩
  · rw [hfound] at hsome
    cases hsome
    exact ⟨tree, hshows⟩
  · rw [hfound] at hnone
    cases hnone

namespace SharedStore

variable {store after : SharedStore}

/-- At a slot itself there is what the slot holds. -/
theorem ref?_nil (store : SharedStore) (slot : Slot) :
    store.ref? ⟨slot, []⟩ = store.shelf.get? slot := by
  rw [ref?]
  cases store.shelf.get? slot <;> rfl

open scoped Classical in
/-- The nodes that are found at the registers and below them. -/
noncomputable def reached (store : SharedStore) : Finset Ref :=
  (Finset.range store.heap.cells.size).filter fun ref =>
    ∃ name path, store.ref? ⟨.register name, path⟩ = some ref

/-- Every holder is counted, no slot is listed twice, and the argument slot is empty. -/
structure Tidy (store : SharedStore) : Prop where
  mirrors : ∃ plain, Mirrors store plain []
  slots : store.shelf.slots.Nodup
  argument : store.shelf.get? .argument = none

theorem mem_reached (htidy : store.Tidy) {ref : Ref} :
    ref ∈ store.reached ↔ ∃ name path, store.ref? ⟨.register name, path⟩ = some ref := by
  simp only [reached, Finset.mem_filter, Finset.mem_range, and_iff_right_iff_imp]
  rintro ⟨name, path, hfound⟩
  obtain ⟨plain, hmirrors⟩ := htidy.mirrors
  obtain ⟨tree, hshows⟩ := hmirrors.exists_shows hfound
  exact hshows.inBounds

theorem mem_reached_iff_reaches (htidy : store.Tidy) {ref : Ref} :
    ref ∈ store.reached ↔ store.heap.Reaches store.shelf.held ref := by
  rw [mem_reached htidy]
  constructor
  · rintro ⟨name, path, hfound⟩
    obtain ⟨holder, hheld, hpath⟩ := Option.bind_eq_some_iff.mp hfound
    exact ⟨holder, (Shelf.mem_held_iff htidy.slots).mpr ⟨_, hheld⟩, path, hpath⟩
  · rintro ⟨holder, hheld, path, hpath⟩
    obtain ⟨slot, hget⟩ := (Shelf.mem_held_iff htidy.slots).mp hheld
    cases slot with
    | argument => rw [htidy.argument] at hget; cases hget
    | register name => exact ⟨name, path, Option.bind_eq_some_iff.mpr ⟨holder, hget, hpath⟩⟩

/-- The count of a node is the number of registers that hold it and of child slots in reached
nodes. -/
theorem Tidy.count_eq (htidy : store.Tidy) (ref : Ref) :
    (store.heap.cell ref).count =
      (store.shelf.holders ref).card + ∑ parent ∈ store.reached,
      (store.heap.children parent).count ref := by
  obtain ⟨plain, hmirrors⟩ := htidy.mirrors
  rw [← Shelf.count_held htidy.slots htidy.argument]
  exact hmirrors.counted.count_eq_reached (fun parent => mem_reached_iff_reaches htidy) ref

/-- Two workspaces have the very same nodes at and below the registers, and these have as many
holders in one as in the other. -/
structure SharesAs (store after : SharedStore) : Prop where
  ref?_eq : ∀ name path, after.ref? ⟨.register name, path⟩ = store.ref? ⟨.register name, path⟩
  count_eq : ∀ ref, (after.heap.cell ref).count = (store.heap.cell ref).count

theorem children_getElem? {slot : Slot} {path : List Nat} {ref : Ref}
    (hfound : store.ref? ⟨slot, path⟩ = some ref) (pos : Nat) :
    (store.heap.children ref)[pos]? = store.ref? ⟨slot, path ++ [pos]⟩ := by
  obtain ⟨holder, hheld, hpath⟩ := Option.bind_eq_some_iff.mp hfound
  rw [ref?]
  simp only at hheld hpath ⊢
  rw [hheld, Option.bind_some, Heap.find?_concat, hpath, Option.bind_some]

/-- With the same nodes at the same places, all counts are the same. -/
theorem Tidy.sharesAs (hstore : store.Tidy) (hafter : after.Tidy)
    (hrefs : ∀ name path, after.ref? ⟨.register name, path⟩ = store.ref? ⟨.register name, path⟩) :
    store.SharesAs after := by
  refine ⟨hrefs, fun ref => ?_⟩
  have hreached : after.reached = store.reached := by
    ext parent
    rw [mem_reached hstore, mem_reached hafter]
    simp only [hrefs]
  have hholders : after.shelf.holders ref = store.shelf.holders ref := by
    ext name
    have hroot := hrefs name []
    rw [ref?_nil, ref?_nil] at hroot
    rw [Shelf.mem_holders, Shelf.mem_holders, hroot]
  rw [hstore.count_eq, hafter.count_eq, hreached, hholders]
  congr 1
  refine Finset.sum_congr rfl fun parent hparent => ?_
  obtain ⟨name, path, hfound⟩ := (mem_reached hstore).mp hparent
  have hchildren : after.heap.children parent = store.heap.children parent := by
    refine List.ext_getElem? fun pos => ?_
    rw [children_getElem? hfound, children_getElem? ((hrefs name path).trans hfound), hrefs]
  rw [hchildren]

/-! ## Requests -/

theorem nodup_slots_resolve (hslots : store.shelf.slots.Nodup) (origin : Origin) :
    (resolve origin store).2.shelf.slots.Nodup := by
  cases origin with
  | fresh tree => exact hslots
  | held slot =>
      rw [resolve]
      split
      next => exact Shelf.nodup_slots_set hslots slot none
      next => exact hslots
  | shared place =>
      rw [resolve]
      split <;> exact hslots

theorem nodup_slots_resolveRow (hslots : store.shelf.slots.Nodup) (row : RowChange Origin) :
    (row.resolve resolve store).2.shelf.slots.Nodup := by
  have hall : ∀ (origins : List Origin) (store : SharedStore), store.shelf.slots.Nodup →
      (RowChange.resolveAll resolve origins store).2.shelf.slots.Nodup := by
    intro origins
    induction origins with
    | nil => exact fun store hslots => hslots
    | cons origin rest ih =>
        intro store hslots
        rw [RowChange.resolveAll]
        exact ih _ (nodup_slots_resolve hslots origin)
  cases row with
  | insert pos child => exact nodup_slots_resolve hslots child.node
  | replace pos child => exact nodup_slots_resolve hslots child.node
  | refill origins => exact hall origins store hslots
  | _ => exact hslots

theorem nodup_slots_editAt (hslots : store.shelf.slots.Nodup) (place : Place)
    (edit : Heap → Ref → Heap) :
    (store.editAt place edit).shelf.slots.Nodup := by
  rw [editAt]
  split
  next => exact hslots
  next => exact Shelf.nodup_slots_set hslots place.slot _

/-- No request lists a slot twice. -/
theorem nodup_slots_answer (hslots : store.shelf.slots.Nodup) {α : Type} (request : Request α) :
    (answer request store).2.shelf.slots.Nodup := by
  cases request with
  | own place => exact nodup_slots_editAt hslots place _
  | change place made =>
      have hresolved := nodup_slots_resolveRow hslots made.row
      simp only [answer]
      split
      next => exact nodup_slots_editAt hresolved place _
      next => exact hresolved
  | hold slot tree => exact Shelf.nodup_slots_set hslots slot _
  | share place slot =>
      simp only [answer]
      split <;> exact Shelf.nodup_slots_set hslots slot _
  | take source target =>
      exact Shelf.nodup_slots_set (Shelf.nodup_slots_set hslots source none) target _
  | release slot => exact Shelf.nodup_slots_set hslots slot none
  | touch slot => exact Shelf.nodup_slots_touch hslots slot
  | _ => exact hslots

theorem nodup_slots_run {α : Type} (program : Program α) (hslots : store.shelf.slots.Nodup) :
    (program.run store).2.shelf.slots.Nodup := by
  induction program generalizing store with
  | done result => exact hslots
  | ask request next ih => exact ih _ (nodup_slots_answer hslots request)

/-! ## Making a node one's own -/

/-- The node at a place, if there is one, has a single holder. -/
def Sole (store : SharedStore) (place : Place) : Prop :=
  ∀ ref, store.ref? place = some ref → (store.heap.cell ref).count = 1

/-- What belongs to its holder alone with all that is above it is left as it is. -/
theorem answer_own_of_sole {place : Place}
    (hsole : ∀ front, front <+: place.path → store.Sole ⟨place.slot, front⟩) :
    answer (.own place) store = ((), store) := by
  simp only [answer, editAt]
  cases hheld : store.shelf.get? place.slot with
  | none => rfl
  | some ref =>
      have hsame :
          Heap.editAlong (fun heap _ => heap) place.path ref store.heap = (ref, store.heap) := by
        refine Heap.editAlong_of_sole fun front found hfront hfound => hsole front hfront found ?_
        rw [ref?, hheld, Option.bind_some, hfound]
      simp only [hsame, Shelf.set_self hheld]

/-- Where a slot is given a node, the paths from the slot are the paths from the node. -/
theorem ref?_set (heap : Heap) (shelf : Shelf Ref) (slot : Slot) (ref : Ref) (path : List Nat) :
    ref? ⟨heap, shelf.set slot (some ref)⟩ ⟨slot, path⟩ = heap.find? ref path := by
  rw [ref?, Shelf.get?_set, if_pos rfl, Option.bind_some]

end SharedStore

namespace Mirrors

variable {store : SharedStore} {plain : PrivateStore}

/-- Whatever a slot holds is held besides what the other slots hold. -/
theorem counted_slot (hmirrors : Mirrors store plain []) {slot : Slot} {holder : Ref}
    (hheld : store.shelf.get? slot = some holder) :
    store.heap.Counted [] (holder :: (store.shelf.set slot none).held) ∧
      ∃ tree, store.heap.Shows holder tree := by
  have hperm := store.shelf.perm_held slot
  rw [hheld] at hperm
  have hcounted : store.heap.Counted [] (holder :: (store.shelf.set slot none).held) :=
    hmirrors.counted.perm hperm
  exact ⟨hcounted, hcounted.shown holder List.not_mem_nil (hcounted.inBounds List.mem_cons_self)⟩

/-- Whoever makes a node his own has one that belongs to him alone, with all that is above it. -/
theorem sole_own (hmirrors : Mirrors store plain []) (place : Place) {front : List Nat}
    (hfront : front <+: place.path) :
    (SharedStore.answer (.own place) store).2.Sole ⟨place.slot, front⟩ := by
  intro ref hfound
  simp only [SharedStore.answer, SharedStore.editAt] at hfound ⊢
  cases hheld : store.shelf.get? place.slot with
  | none =>
      simp only [hheld] at hfound
      rw [SharedStore.ref?, hheld] at hfound
      cases hfound
  | some holder =>
      obtain ⟨hcounted, tree, hshows⟩ := hmirrors.counted_slot hheld
      simp only [hheld] at hfound ⊢
      rw [SharedStore.ref?_set] at hfound
      exact hcounted.sole_along hshows front ref hfront hfound

/-- Making a node with further holders one's own puts a new node at its place and at no other
one. -/
theorem forks (hmirrors : Mirrors store plain []) {place : Place}
    (habove : ∀ front, front <+: place.path → front ≠ place.path → store.Sole ⟨place.slot, front⟩)
    {ref : Ref} (hfound : store.ref? place = some ref) (hmany : 1 < (store.heap.cell ref).count) :
    let after := (SharedStore.answer (.own place) store).2
    after.ref? place = some store.heap.cells.size ∧ store.heap.Forks after.heap ref ∧
      ∀ other, other ≠ place → after.ref? other = store.ref? other := by
  obtain ⟨slot, path⟩ := place
  obtain ⟨holder, hheld, hpath⟩ := Option.bind_eq_some_iff.mp hfound
  have hstays := (hmirrors.own ⟨slot, path⟩).2
  simp only [SharedStore.answer, SharedStore.editAt] at hheld hpath hstays ⊢
  obtain ⟨hcounted, tree, hshows⟩ := hmirrors.counted_slot hheld
  obtain ⟨hnew, hforks, hothers⟩ := hcounted.forks_along hshows
    (fun front found hfront hne hmid => habove front hfront hne found
      (Option.bind_eq_some_iff.mpr ⟨holder, hheld, hmid⟩)) hpath hmany
  simp only [hheld] at hstays ⊢
  refine ⟨(SharedStore.ref?_set ..).trans hnew, hforks, fun other hother => ?_⟩
  obtain ⟨otherSlot, way⟩ := other
  by_cases hsame : otherSlot = slot
  · subst hsame
    have hway : way ≠ path := fun heq => hother (heq ▸ rfl)
    rw [SharedStore.ref?_set, hothers way hway, SharedStore.ref?, hheld, Option.bind_some]
  · exact (hstays otherSlot hsame).ref?_eq way

end Mirrors

end KeyedTree
