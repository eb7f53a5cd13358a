import Mathlib.Data.String.Basic
import KeyedTree.Proofs.Grammar.Containers
import KeyedTree.Proofs.Reader.Lines

/-! # Key order

Keys are ordered by the bytes of their UTF-8 encodings, which is the order of their characters. A
row of trees with distinct keys can be put into key order all at once, or each tree is put in at its
place as it comes: the row is the same. A tree is in key order when the members of all its objects
are.
-/

namespace KeyedTree

/-! ## Bytes of keys -/

/-- Of two code points the lower one has the lower digit to the base 64 where their digits differ
first. -/
theorem digits_lt {m n : Nat} (hlt : m < n) (hmax : n < 0x110000) :
    m / 262144 % 8 < n / 262144 % 8 ∨ m / 262144 % 8 = n / 262144 % 8 ∧
      (m / 4096 % 64 < n / 4096 % 64 ∨ m / 4096 % 64 = n / 4096 % 64 ∧
        (m / 64 % 64 < n / 64 % 64 ∨ m / 64 % 64 = n / 64 % 64 ∧ m % 64 < n % 64)) := by
  have hdigit : ∀ {m n : Nat}, m < n → m / 64 < n / 64 ∨ m / 64 = n / 64 ∧ m % 64 < n % 64 := by
    omega
  have hsecond : ∀ k, k / 64 / 64 = k / 4096 := fun k => Nat.div_div_eq_div_mul k 64 64
  have hthird : ∀ k, k / 4096 / 64 = k / 262144 := fun k => Nat.div_div_eq_div_mul k 4096 64
  have hfirst : ∀ k, k < 0x110000 → k / 262144 % 8 = k / 262144 := by omega
  rw [hfirst m (hlt.trans hmax), hfirst n hmax]
  rcases hdigit hlt with hlt | ⟨heq, hlt⟩
  · rcases hdigit hlt with hlt | ⟨heq, hlt⟩
    · rw [hsecond, hsecond] at hlt
      rcases hdigit hlt with hlt | ⟨heq, hlt⟩
      · rw [hthird, hthird] at hlt
        exact .inl hlt
      · rw [hthird, hthird] at heq
        exact .inr ⟨heq, .inl hlt⟩
    · rw [hsecond, hsecond] at heq
      exact .inr ⟨by rw [← hthird, heq, hthird], .inr ⟨by rw [heq], .inl hlt⟩⟩
  · have hfour : m / 4096 = n / 4096 := by rw [← hsecond, heq, hsecond]
    exact .inr ⟨by rw [← hthird, hfour, hthird], .inr ⟨by rw [hfour], .inr ⟨by rw [heq], hlt⟩⟩⟩

/-- The encodings of two characters are in the order of the characters, whatever stands behind
them. -/
theorem utf8EncodeChar_lt {c d : Char} (hlt : c < d) (rest rest' : List UInt8) :
    String.utf8EncodeChar c ++ rest < String.utf8EncodeChar d ++ rest' := by
  have hcode : c.val.toNat < d.val.toNat := hlt
  have hmax : d.val.toNat < 0x110000 := by
    have hvalid := d.valid
    simp only [UInt32.isValidChar, Nat.isValidChar] at hvalid
    omega
  have hdigits := digits_lt hcode hmax
  have hbyte : ∀ {m n : Nat}, m < 256 → n < 256 → (UInt8.ofNat m < UInt8.ofNat n ↔ m < n) :=
    fun hm hn => UInt8.ofNat_lt_iff_lt hm hn
  have hsame : ∀ {m n : Nat}, m < 256 → n < 256 → (UInt8.ofNat m = UInt8.ofNat n ↔ m = n) := by
    intro m n hm hn
    rw [← UInt8.toNat_inj, UInt8.toNat_ofNat_of_lt' hm, UInt8.toNat_ofNat_of_lt' hn]
  unfold String.utf8EncodeChar
  generalize c.val.toNat = m at *
  generalize d.val.toNat = n at *
  simp only
  -- a longer encoding starts with a greater byte, and one of the same length has the digits in
  -- order
  repeat' split
  all_goals
    simp (disch := omega) only [List.cons_append, List.cons_lt_cons_iff, hbyte, hsame]
    omega

theorem utf8_lt {first second : List Char} (hlt : first < second) : utf8 first < utf8 second := by
  induction first generalizing second with
  | nil =>
      cases second with
      | nil => exact absurd hlt (List.lt_irrefl _)
      | cons d rest' =>
          have hne : utf8 (d :: rest') ≠ [] := utf8_ne_nil (List.cons_ne_nil d rest')
          cases hbytes : utf8 (d :: rest') with
          | nil => exact absurd hbytes hne
          | cons byte bytes => exact List.nil_lt_cons byte bytes
  | cons c rest ih =>
      cases second with
      | nil => exact absurd hlt (List.not_lt_nil _)
      | cons d rest' =>
          rcases List.cons_lt_cons_iff.mp hlt with hcd | ⟨rfl, hrest⟩
          · exact utf8EncodeChar_lt hcd _ _
          · exact List.append_left_lt (ih hrest)

/-- Texts are in the order of their bytes. -/
theorem utf8_le_iff {first second : String} :
    utf8 first.toList ≤ utf8 second.toList ↔ first ≤ second := by
  constructor
  · intro hle
    apply String.not_lt.mp
    intro hlt
    exact List.not_lt.mpr hle (utf8_lt (String.lt_iff_toList_lt.mp hlt))
  · intro hle
    by_cases heq : first = second
    · exact heq ▸ List.le_refl _
    · have hlt := Std.lt_of_le_of_ne hle heq
      exact List.le_of_lt (utf8_lt (String.lt_iff_toList_lt.mp hlt))

theorem utf8_lt_iff {first second : String} :
    utf8 first.toList < utf8 second.toList ↔ first < second := by
  rw [← List.not_le, utf8_le_iff, String.not_le]

/-! ## Rows in key order -/

namespace Tree

/-- The trees of a row in the order of the bytes of their keys. -/
def inKeyOrder (row : List Tree) : List Tree :=
  row.mergeSort fun first second => utf8 first.key.toList ≤ utf8 second.key.toList

variable {row other : List Tree} {value : Tree}

theorem inKeyOrder_perm (row : List Tree) : (inKeyOrder row).Perm row :=
  List.mergeSort_perm _ _

/-- The order is strict where no two trees have the same key. -/
theorem inKeyOrder_ascending (hkeys : (row.map key).Nodup) :
    (inKeyOrder row).Pairwise fun first second => first.key < second.key := by
  have hsorted : (inKeyOrder row).Pairwise fun first second =>
      utf8 first.key.toList ≤ utf8 second.key.toList :=
    (List.pairwise_mergeSort (by simpa using fun _ _ _ => List.le_trans)
      (by simpa using fun _ _ => List.le_total ..) row).imp of_decide_eq_true
  have hdistinct : (inKeyOrder row).Pairwise fun first second => first.key ≠ second.key :=
    ((inKeyOrder_perm row).pairwise_iff fun hne => hne.symm).mpr (List.pairwise_map.mp hkeys)
  refine (hsorted.and hdistinct).imp fun {first second} h => ?_
  exact Std.lt_of_le_of_ne (utf8_le_iff.mp h.1) h.2

/-- There is only one strictly ascending row of the same trees. -/
theorem eq_inKeyOrder (hother : other.Pairwise fun first second => first.key < second.key)
    (hperm : other.Perm row) : other = inKeyOrder row := by
  have hdistinct : (other.map key).Nodup := by
    refine List.pairwise_map.mpr (hother.imp fun {first second} hlt heq => ?_)
    exact String.lt_irrefl _ (heq ▸ hlt)
  have hkeys : (row.map key).Nodup := (hperm.map key).nodup_iff.mp hdistinct
  refine List.Perm.eq_of_pairwise ?_ hother (inKeyOrder_ascending hkeys)
    (hperm.trans (inKeyOrder_perm row).symm)
  intro first second _ _ hlt hgt
  exact absurd hgt (String.lt_asymm hlt)

/-- A row stays in key order when a tree with a new key is put in at the place for its key. -/
theorem ascending_insertInto (hrow : row.Pairwise fun first second => first.key < second.key)
    (hkeyed : ∀ tree ∈ row, tree.key ≠ "") (hnew : value.key ∉ row.map key) :
    (insertInto row (Outline.sortedPlace value.key (row.map key)) value).Pairwise
      fun first second => first.key < second.key := by
  have hbefore : (row.map key).Pairwise fun left right =>
      decide (right ≠ "" ∧ right < value.key) = true →
        decide (left ≠ "" ∧ left < value.key) = true := by
    refine List.pairwise_map.mpr (hrow.imp_of_mem fun {left right} hleft _ hlt hright => ?_)
    exact decide_eq_true ⟨hkeyed left hleft, String.lt_trans hlt (of_decide_eq_true hright).2⟩
  have hplace := bisect_eq_findIdx hbefore
  rw [Outline.insertInto_of_le ((Outline.sortedPlace_le_length _ _).trans_eq (List.length_map _)),
    Outline.sortedPlace, hplace]
  clear hplace hbefore
  induction row with
  | nil => simp
  | cons tree rest ih =>
      obtain ⟨hbelow, hrest⟩ := List.pairwise_cons.mp hrow
      obtain ⟨htree, hkeyed⟩ := List.forall_mem_cons.mp hkeyed
      obtain ⟨hne, hnew⟩ : value.key ≠ tree.key ∧ value.key ∉ rest.map key := by
        simpa using hnew
      rw [List.map_cons, List.findIdx_cons]
      by_cases hlt : tree.key < value.key
      · simp only [htree, hlt, ne_eq, not_false_eq_true, and_self, decide_true, Bool.not_true,
          cond_false, List.insertIdx_succ_cons]
        refine List.pairwise_cons.mpr ⟨fun later hlater => ?_, ih hrest hkeyed hnew⟩
        rcases List.eq_or_mem_of_mem_insertIdx hlater with rfl | hlater
        · exact hlt
        · exact hbelow later hlater
      · simp only [hlt, and_false, decide_false, Bool.not_false, cond_true, List.insertIdx_zero]
        have hgt : value.key < tree.key := Std.lt_of_le_of_ne (String.not_lt.mp hlt) hne
        refine List.pairwise_cons.mpr ⟨fun later hlater => ?_, hrow⟩
        rcases List.mem_cons.mp hlater with rfl | hlater
        · exact hgt
        · exact String.lt_trans hgt (hbelow later hlater)

/-- Putting a tree in at the place for its new key gives the row in key order with that tree. -/
theorem insertInto_inKeyOrder (hkeys : (row.map key).Nodup) (hkeyed : ∀ tree ∈ row, tree.key ≠ "")
    (hnew : value.key ∉ row.map key) :
    insertInto (inKeyOrder row) (Outline.sortedPlace value.key ((inKeyOrder row).map key)) value =
      inKeyOrder (row ++ [value]) := by
  have hperm := inKeyOrder_perm row
  have hplace :
      Outline.sortedPlace value.key ((inKeyOrder row).map key) ≤ (inKeyOrder row).length :=
    (Outline.sortedPlace_le_length _ _).trans_eq (List.length_map _)
  refine eq_inKeyOrder (ascending_insertInto (inKeyOrder_ascending hkeys)
    (fun tree htree => hkeyed tree (hperm.mem_iff.mp htree))
    (mt (hperm.map key).mem_iff.mp hnew)) ?_
  rw [Outline.insertInto_of_le hplace]
  have hfront := (List.perm_insertIdx value _ hplace).trans (hperm.cons value)
  exact hfront.trans (List.perm_append_singleton value row).symm

/-! ## Trees in key order -/

mutual

/-- The tree with the members of all its objects in key order. All of its nodes are autosorted;
elements of arrays stay where they are. -/
def ordered : Tree → Tree
  | .node head children =>
      let row := orderedRow children
      if head.kind = .object then
        let members := inKeyOrder row
        .node { head with autosort := true, index := (KeyIndex.ofKeys (members.map key)).1 } members
      else .node { head with autosort := true } row

/-- The trees of a row, each of them in key order. -/
def orderedRow : List Tree → List Tree
  | [] => []
  | child :: rest => child.ordered :: orderedRow rest

end

/-- The tree in key order as a document: the root is autosorted if it is a container. -/
def sorted (tree : Tree) : Tree :=
  tree.ordered.withAutosort tree.kind.isContainer

theorem orderedRow_eq_map (row : List Tree) : orderedRow row = row.map ordered := by
  induction row with
  | nil => rfl
  | cons child rest ih => rw [orderedRow, ih, List.map_cons]

/-- Nothing of the root changes but its flag and the index of an object. -/
theorem head_ordered (tree : Tree) :
    ∃ index, tree.ordered.head = { tree.head with autosort := true, index } := by
  obtain ⟨head, children⟩ := tree
  unfold ordered
  split
  next hobject => exact ⟨_, rfl⟩
  next hother => exact ⟨_, rfl⟩

@[simp] theorem key_ordered (tree : Tree) : tree.ordered.key = tree.key := by
  obtain ⟨index, hhead⟩ := head_ordered tree
  rw [key, hhead]
  rfl

@[simp] theorem autosort_ordered (tree : Tree) : tree.ordered.head.autosort = true := by
  obtain ⟨index, hhead⟩ := head_ordered tree
  rw [hhead]

theorem key_sorted (tree : Tree) : tree.sorted.key = tree.key :=
  key_ordered tree

/-- A tree that is attached to an autosorted container is in key order then, with its flag. -/
theorem stamped_sorted (tree : Tree) (key : String) :
    (⟨tree.sorted, Outline.stampFor tree.sorted.head key true⟩ : Newcomer Tree).stamped =
      (tree.withKey key).ordered := by
  obtain ⟨head, children⟩ := tree
  rw [stamped_stampFor]
  by_cases hobject : head.kind = .object
  · simp [sorted, withKey, withAutosort, withHead, Tree.head, Tree.children, ordered, hobject]
  · simp [sorted, withKey, withAutosort, withHead, Tree.head, Tree.children, ordered, hobject]

theorem map_key_ordered (row : List Tree) : (row.map ordered).map key = row.map key := by
  rw [List.map_map]
  exact List.map_congr_left fun tree _ => key_ordered tree

theorem sorted_of_container {tree : Tree} (hkind : tree.kind.isContainer = true) :
    tree.sorted = tree.ordered := by
  rw [sorted, hkind, withAutosort, ← autosort_ordered tree]
  exact node_head_children _

end Tree

/-! ## Containers in key order -/

namespace Grammar

open KeyedTree.Tree

variable {row : List Tree} {key : String}

theorem ordered_object (row : List Tree) :
    (objectOf row).ordered = (objectOf (inKeyOrder (row.map ordered))).withAutosort true := by
  simp only [objectOf, ordered, if_true, orderedRow_eq_map]
  rfl

theorem ordered_array (row : List Tree) :
    (arrayOf row).ordered = (arrayOf (row.map ordered)).withAutosort true := by
  simp only [arrayOf, ordered, orderedRow_eq_map]
  rfl

/-- The same keys are present in an object, in whatever order its members are. -/
theorem contains_ordered (hkeys : (row.map Tree.key).Nodup) (key : String) :
    (objectOf row).ordered.index.contains key = (objectOf row).index.contains key := by
  have hperm : ((inKeyOrder (row.map ordered)).map Tree.key).Perm (row.map Tree.key) := by
    rw [← map_key_ordered row]
    exact (inKeyOrder_perm _).map Tree.key
  have hnames := names_object (hperm.nodup_iff.mpr hkeys)
  apply Bool.eq_iff_iff.mpr
  rw [ordered_object]
  refine (hnames.contains_iff key).trans (Iff.trans ?_ ((names_object hkeys).contains_iff key).symm)
  exact and_congr_right fun _ => hperm.mem_iff

/-- An autosorted object takes a member under a new key in at the place for the key. -/
theorem attachKeyed_autosorted (value : Tree) (hkeys : (row.map Tree.key).Nodup) (hkey : key ≠ "")
    (hnew : key ∉ row.map Tree.key) {pos : Nat}
    (hpos : Outline.sortedPlace key (row.map Tree.key) = pos) :
    ((objectOf row).withAutosort true).attachKeyed key value.sorted =
      (.ok pos, (objectOf (insertInto row pos (value.withKey key).ordered)).withAutosort true) := by
  have hnames := names_object hkeys
  have hmissing : (objectOf row).outline.head.index.get? key = none :=
    (hnames.get?_eq_none_iff key).mpr (.inr hnew)
  have hdecide : Outline.attach .attachKeyed (some key) value.sorted value.sorted.head
      ((objectOf row).withAutosort true).outline =
        .changed
          { head :=
              { kind := .object, autosort := true
                index := (objectOf row).outline.head.index.insertAt key pos }
            row :=
              .insert pos ⟨value.sorted, Outline.stampFor value.sorted.head key true⟩ } pos := by
    rw [Outline.attach_of_blank_or_object _ _ _ _ (.inr rfl), Option.getD_some]
    have hautosort : ((objectOf row).withAutosort true).outline.head.autosort = true := rfl
    have hsame : ((objectOf row).withAutosort true).outline.head.index =
        (objectOf row).outline.head.index := rfl
    have hkeys : ((objectOf row).withAutosort true).outline.keys = row.map Tree.key := rfl
    simp only [hautosort, hsame, hmissing, hkeys, hkey, hpos, Bool.not_true, Bool.false_eq_true,
      or_self, if_false]
    rfl
  have hplace := hpos ▸ Outline.sortedPlace_le_length key (row.map Tree.key)
  have hnamed := hnames.insertAt hplace (.inr hnew)
  have hindex :
      (KeyIndex.ofKeys ((insertInto row pos (value.withKey key).ordered).map Tree.key)).1 =
      (objectOf row).outline.head.index.insertAt key pos := by
    rw [map_insertInto, key_ordered, key_withKey, Outline.insertInto_of_le hplace]
    exact congrArg Prod.fst hnamed.ofKeys_eq
  rw [attachKeyed, perform_changed hdecide]
  refine congrArg (Prod.mk _) ?_
  change Tree.node _ _ =
    Tree.node { kind := .object, autosort := true, index := (KeyIndex.ofKeys _).1 } _
  rw [hindex, ← stamped_sorted]
  rfl

/-- An object in key order that takes a new member in is the object in key order with that
member. -/
theorem attachKeyed_ordered (value : Tree) (hkeys : (row.map Tree.key).Nodup)
    (hkeyed : ∀ member ∈ row, member.key ≠ "") (hkey : key ≠ "") (hnew : key ∉ row.map Tree.key) :
    ∃ pos, (objectOf row).ordered.attachKeyed key value.sorted =
      (.ok pos, (objectOf (row ++ [value.withKey key])).ordered) := by
  have hkeys' : ((row.map ordered).map Tree.key).Nodup := (map_key_ordered row).symm ▸ hkeys
  have hnew' : key ∉ (row.map ordered).map Tree.key := by
    rwa [map_key_ordered]
  have hguest : (value.withKey key).ordered.key = key := key_ordered _
  have hkeyed' : ∀ member ∈ row.map ordered, member.key ≠ "" := by
    simpa using hkeyed
  have hperm := (inKeyOrder_perm (row.map ordered)).map Tree.key
  have hjoined := attachKeyed_autosorted value (hperm.nodup_iff.mpr hkeys') hkey
    (mt hperm.mem_iff.mp hnew') rfl
  have hplaced := insertInto_inKeyOrder hkeys' hkeyed' (hguest.symm ▸ hnew')
  rw [hguest] at hplaced
  rw [ordered_object, ordered_object, List.map_append, List.map_singleton, ← hplaced]
  exact ⟨_, hjoined⟩

/-- An array takes an element in behind the others, also in key order. -/
theorem append_ordered (row : List Tree) (value : Tree) :
    (arrayOf row).ordered.append value.sorted =
      (.ok row.length, (arrayOf (row ++ [value])).ordered) := by
  have hlength :
      ((arrayOf (row.map ordered)).withAutosort true).outline.keys.length = row.length := by
    change ((row.map ordered).map Tree.key).length = _
    rw [List.length_map, List.length_map]
  have hdecide : Outline.append value.sorted value.sorted.head
      ((arrayOf (row.map ordered)).withAutosort true).outline =
        .changed ⟨{ kind := .array, autosort := true }, .insert row.length
          ⟨value.sorted, Outline.stampFor value.sorted.head value.sorted.key true⟩⟩ row.length := by
    rw [← hlength]
    rfl
  rw [ordered_array, ordered_array, append, perform_changed hdecide]
  refine congrArg (Prod.mk _) (congrArg (Tree.node _) ?_)
  have hkey : value.withKey value.sorted.key = value := by
    rw [key_sorted]
    exact node_head_children value
  change insertInto (row.map ordered) row.length _ = _
  rw [stamped_sorted, hkey, List.map_append, List.map_singleton, ← insertInto_length,
    List.length_map]
  rfl

/-- Whether an object in key order takes a member in or refuses it depends on the keys alone. -/
theorem fill_member_ordered (value : Tree) (hkeys : (row.map Tree.key).Nodup)
    (hkeyed : ∀ member ∈ row, member.key ≠ "") (hkey : key ≠ "") (place : Cursor) :
    (Hole.member (objectOf row).ordered key).fill value.sorted place =
      if key ∈ row.map Tree.key then .error (.malformed place (.duplicateKey key))
      else .ok (.object (objectOf (row ++ [value.withKey key])).ordered .commaOrClose) := by
  have hcontains := (names_object hkeys).contains_iff key
  unfold Hole.fill
  simp only [contains_ordered hkeys]
  by_cases hmem : key ∈ row.map Tree.key
  · rw [if_pos hmem]
    exact if_pos (hcontains.mpr ⟨hkey, hmem⟩)
  · obtain ⟨pos, hjoined⟩ := attachKeyed_ordered value hkeys hkeyed hkey hmem
    rw [if_neg hmem, hjoined]
    apply if_neg
    intro hrepeated
    exact hmem (hcontains.mp hrepeated).2

theorem fill_element_ordered (row : List Tree) (value : Tree) (place : Cursor) :
    (Hole.element (arrayOf row).ordered).fill value.sorted place =
      .ok (.array (arrayOf (row ++ [value])).ordered .commaOrClose) := by
  unfold Hole.fill
  simp only
  rw [append_ordered]

end Grammar

end KeyedTree
