import Mathlib.Data.List.Infix
import Mathlib.Tactic.FinCases
import KeyedTree.CommandLine.TreePath
import KeyedTree.Proofs.Reader.Clean
import KeyedTree.Proofs.Reader.Pieces

/-! # Paths address nodes

A path is followed segment by segment: in an object a segment is the key of a member, in an array it
denotes the position of an element. So a path that is made of the names on the way to a node leads
to this node, if no key on the way has a dot in it, and a path that leads somewhere leads to one
node only. Dots next to other dots or at the ends of a path do not count.
-/

namespace KeyedTree

/-! ## Segments -/

theorem splitAtDots_ne_nil (text : List Char) : splitAtDots text ≠ [] := by
  unfold splitAtDots
  split
  next => exact List.cons_ne_nil _ _
  next => exact List.cons_ne_nil _ _
  next => split <;> exact List.cons_ne_nil _ _

theorem splitAtDots_cons {c : Char} (hc : c ≠ '.') {rest segment : List Char}
    {segments : List (List Char)} (hsplit : splitAtDots rest = segment :: segments) :
    splitAtDots (c :: rest) = (c :: segment) :: segments := by
  rw [splitAtDots.eq_3 c rest hc, hsplit]

/-- A text is split at each of its dots. -/
theorem splitAtDots_append (front back : List Char) :
    splitAtDots (front ++ '.' :: back) = splitAtDots front ++ splitAtDots back := by
  induction front with
  | nil => rfl
  | cons c rest ih =>
      by_cases hc : c = '.'
      · subst hc
        exact congrArg ([] :: ·) ih
      · obtain ⟨segment, segments, hsplit⟩ := List.exists_cons_of_ne_nil (splitAtDots_ne_nil rest)
        rw [hsplit] at ih
        rw [List.cons_append, splitAtDots_cons hc ih, splitAtDots_cons hc hsplit]
        rfl

theorem splitAtDots_of_not_mem {text : List Char} (hdot : '.' ∉ text) :
    splitAtDots text = [text] := by
  induction text with
  | nil => rfl
  | cons c rest ih =>
      obtain ⟨hc, hrest⟩ := not_or.mp (mt List.mem_cons.mpr hdot)
      exact splitAtDots_cons (Ne.symm hc) (ih hrest)

/-- The parts of a text between its dots, without the empty ones. -/
def dotted (text : List Char) : List (List Char) :=
  (splitAtDots text).filter (!·.isEmpty)

theorem pathSegments_eq (path : String) :
    pathSegments path = (dotted path.toList).map String.ofList := rfl

theorem dotted_append (front back : List Char) :
    dotted (front ++ '.' :: back) = dotted front ++ dotted back := by
  rw [dotted, splitAtDots_append, List.filter_append]
  rfl

/-- Texts with dots between them are the parts of what they make up. -/
theorem dotted_intercalate {names : List (List Char)}
    (hnames : ∀ name ∈ names, name ≠ [] ∧ '.' ∉ name) :
    dotted (['.'].intercalate names) = names := by
  induction names with
  | nil => rfl
  | cons name rest ih =>
      obtain ⟨⟨hne, hdot⟩, hrest⟩ := List.forall_mem_cons.mp hnames
      have hname : dotted name = [name] := by simp [dotted, splitAtDots_of_not_mem hdot, hne]
      cases rest with
      | nil => simpa using hname
      | cons next others =>
          rw [List.intercalate_cons_cons, List.append_assoc, List.singleton_append, dotted_append,
            hname, ih hrest]
          rfl

/-- A place in a text where dots do not count: one of its ends, or next to a dot. -/
def Loose (front back : List Char) : Prop :=
  front = [] ∨ back = [] ∨ front.getLast? = some '.' ∨ back.head? = some '.'

theorem dotted_loose {front back : List Char} (hloose : Loose front back) :
    dotted (front ++ '.' :: back) = dotted (front ++ back) := by
  have hnil : dotted [] = [] := rfl
  rw [dotted_append]
  rcases hloose with rfl | rfl | hfront | hback
  · rfl
  · rw [hnil, List.append_nil, List.append_nil]
  · obtain ⟨front, rfl⟩ := List.getLast?_eq_some_iff.mp hfront
    rw [dotted_append, List.append_assoc front, List.singleton_append, dotted_append, hnil,
      List.append_nil]
  · obtain ⟨back, rfl⟩ := List.head?_eq_some_iff.mp hback
    rw [dotted_append]
    rfl

/-- Any number of dots may be put into a text at such a place. -/
theorem dotted_dots {front back : List Char} (hloose : Loose front back) (count : Nat) :
    dotted (front ++ List.replicate count '.' ++ back) = dotted (front ++ back) := by
  induction count with
  | zero => rw [List.replicate_zero, List.append_nil]
  | succ count ih =>
      have hstill : Loose front (List.replicate count '.' ++ back) := by
        cases count with
        | zero => exact hloose
        | succ count => exact .inr (.inr (.inr rfl))
      rw [← ih, List.replicate_succ, List.append_assoc, List.append_assoc, List.cons_append,
        dotted_loose hstill]

theorem ne_empty_of_mem_pathSegments {path segment : String}
    (hsegment : segment ∈ pathSegments path) :
    segment ≠ "" := by
  obtain ⟨part, hpart, rfl⟩ := List.mem_map.mp hsegment
  have hne := (List.mem_filter.mp hpart).2
  rintro hempty
  rw [String.ofList_eq_empty_iff.mp hempty] at hne
  cases hne

/-- The segments of a path that is made of names are these names. -/
theorem pathSegments_intercalate {names : List String}
    (hnames : ∀ name ∈ names, name ≠ "" ∧ '.' ∉ name.toList) :
    pathSegments (".".intercalate names) = names := by
  have hparts : ∀ part ∈ names.map String.toList, part ≠ [] ∧ '.' ∉ part := by
    intro part hpart
    obtain ⟨name, hname, rfl⟩ := List.mem_map.mp hpart
    exact ⟨mt String.toList_eq_nil_iff.mp (hnames name hname).1, (hnames name hname).2⟩
  have hjoined : (".".intercalate names).toList = ['.'].intercalate (names.map String.toList) :=
    String.toList_intercalate
  rw [pathSegments_eq, hjoined, dotted_intercalate hparts, List.map_map]
  simp

/-! ## Positions -/

theorem le_ofDigitChars (digits : List Char) (pos : Nat) :
    pos ≤ Nat.ofDigitChars 10 digits pos := by
  rw [Nat.ofDigitChars_eq_ofDigitChars_zero]
  exact le_trans (Nat.le_mul_of_pos_left pos (Nat.pow_pos (by decide))) (Nat.le_add_right _ _)

/-- Digits are taken in as long as the number that they denote fits. -/
theorem positionFrom_eq {digits : List Char} (hdigits : ∀ c ∈ digits, c.isDigit = true) {pos : Nat}
    (hfits : Nat.ofDigitChars 10 digits pos < 2 ^ 64) :
    positionFrom pos digits = .ok (Nat.ofDigitChars 10 digits pos) := by
  induction digits generalizing pos with
  | nil => rfl
  | cons digit rest ih =>
      obtain ⟨hdigit, hrest⟩ := List.forall_mem_cons.mp hdigits
      rw [Nat.ofDigitChars_cons] at hfits ⊢
      have hlonger := lt_of_le_of_lt (le_ofDigitChars rest _) hfits
      have hstep : positionFrom pos (digit :: rest) =
          if !digit.isDigit then .error .notADigit
          else if 10 * pos + (digit.toNat - '0'.toNat) < 2 ^ 64 then
            positionFrom (10 * pos + (digit.toNat - '0'.toNat)) rest
          else .error .tooLarge := rfl
      rw [hstep, hdigit, Bool.not_true, if_neg Bool.false_ne_true, if_pos hlonger]
      exact ih hrest hfits

/-- A position is denoted by its decimal numeral. -/
theorem position_toString {pos : Nat} (hfits : pos < 2 ^ 64) :
    position (toString pos) = .ok pos := by
  have hdigits : ∀ c ∈ Nat.toDigits 10 pos, c.isDigit = true :=
    fun c hc => Nat.isDigit_of_mem_toDigits (by decide) (by decide) hc
  have hread := @positionFrom_eq _ hdigits 0 (by rwa [Nat.ofDigitChars_ten_toDigits])
  rw [Nat.ofDigitChars_ten_toDigits] at hread
  unfold position
  rw [Nat.toString_eq_repr, Nat.toList_repr]
  split
  next hnil => exact absurd hnil Nat.toDigits_ne_nil
  next hplus => exact absurd (hdigits '+' (hplus ▸ List.mem_cons_self)) (by decide)
  next digits hplus => exact absurd (hdigits '+' (hplus ▸ List.mem_cons_self)) (by decide)
  next => exact hread

theorem dot_not_mem_toString (pos : Nat) : '.' ∉ (toString pos).toList := by
  rw [Nat.toString_eq_repr, Nat.toList_repr]
  intro hdot
  exact absurd (Nat.isDigit_of_mem_toDigits (by decide) (by decide) hdot) (by decide)

theorem toString_ne_empty (pos : Nat) : toString pos ≠ "" := by
  rw [Nat.toString_eq_repr]
  intro hempty
  have hlist := congrArg String.toList hempty
  rw [Nat.toList_repr] at hlist
  exact Nat.toDigits_ne_nil hlist

namespace Tree

variable {tree child node : Tree} {segment : String} {segments : List String} {pos : Nat}
  {path : List Nat}

/-! ## Following segments -/

/-- A segment leads from a node to the child at a position: from an object to a member by its key,
and from an array to an element by the position that the segment denotes. -/
inductive StepsTo (tree : Tree) (segment : String) (pos : Nat) (child : Tree) : Prop
  | member (hobject : tree.kind = .object) (hchild : tree.children[pos]? = some child)
      (hkey : child.key = segment)
  | element (harray : tree.kind = .array) (hchild : tree.children[pos]? = some child)
      (hpos : position segment = .ok pos)

/-- Segments lead from a node along a path, one after the other. -/
inductive Leads : Tree → List String → List Nat → Tree → Prop
  | nil {tree : Tree} : Leads tree [] [] tree
  | cons {tree child node : Tree} {segment : String} {segments : List String} {pos : Nat}
      {path : List Nat} :
      tree.StepsTo segment pos child → Leads child segments path node →
      Leads tree (segment :: segments) (pos :: path) node

theorem StepsTo.getElem? (hsteps : tree.StepsTo segment pos child) :
    tree.children[pos]? = some child := by
  cases hsteps with
  | member _ hchild _ => exact hchild
  | element _ hchild _ => exact hchild

theorem Leads.subtree? (hleads : tree.Leads segments path node) :
    tree.subtree? path = some node := by
  induction hleads with
  | nil => exact subtree?_nil _
  | cons hsteps _ ih => rw [subtree?_cons, hsteps.getElem?, Option.bind_some, ih]

theorem childOf?_eq_some_iff (hnames : tree.index.Names tree.keys) (hsegment : segment ≠ "") :
    tree.childOf? segment = some child ↔ ∃ pos : Nat, tree.children[pos]? = some child ∧
      child.key = segment := by
  rw [childOf?, Option.bind_eq_some_iff]
  refine exists_congr fun pos => ?_
  rw [hnames segment pos, keys, List.getElem?_map, Option.map_eq_some_iff]
  constructor
  · rintro ⟨⟨_, found, hfound, hkey⟩, hchild⟩
    rw [hfound] at hchild
    cases hchild
    exact ⟨hfound, hkey⟩
  · rintro ⟨hchild, hkey⟩
    exact ⟨⟨hsegment, child, hchild, hkey⟩, hchild⟩

/-- Where a segment leads is where a step goes. -/
theorem step_eq_ok_iff (hroot : tree.outline.WellFormed) (hsegment : segment ≠ "") :
    tree.step segment = .ok child ↔ ∃ pos, tree.StepsTo segment pos child := by
  unfold step
  split
  next harray =>
    constructor
    · intro hstep
      split at hstep
      next pos hpos =>
        unfold Tree.child at hstep
        split at hstep
        next found hfound =>
          cases hstep
          exact ⟨pos, .element harray hfound hpos⟩
        next => cases hstep
      next => cases hstep
    · rintro ⟨pos, ⟨hobject, _, _⟩ | ⟨_, hchild, hpos⟩⟩
      · rw [harray] at hobject
        cases hobject
      · rw [hpos]
        simp only [Tree.child, hchild]
        rfl
  next hobject =>
    have hfound := @childOf?_eq_some_iff tree child segment (hroot.names hobject) hsegment
    constructor
    · intro hstep
      unfold childOf at hstep
      split at hstep
      next found hlookup =>
        cases hstep
        obtain ⟨pos, hchild, hkey⟩ := hfound.mp hlookup
        exact ⟨pos, .member hobject hchild hkey⟩
      next => cases hstep
    · rintro ⟨pos, ⟨_, hchild, hkey⟩ | ⟨harray, _, _⟩⟩
      · simp only [childOf, hfound.mpr ⟨pos, hchild, hkey⟩]
        rfl
      · rw [hobject] at harray
        cases harray
  next payload harray hobject =>
    refine iff_of_false nofun ?_
    rintro ⟨pos, ⟨hheld, _, _⟩ | ⟨hheld, _, _⟩⟩
    · exact hobject hheld
    · exact harray hheld

theorem followSegments_eq_ok_iff (htree : tree.WellFormed)
    (hsegments : ∀ segment ∈ segments, segment ≠ "") :
    tree.followSegments segments = .ok node ↔ ∃ path, tree.Leads segments path node := by
  induction segments generalizing tree with
  | nil =>
      constructor
      · rintro ⟨⟩
        exact ⟨[], .nil⟩
      · rintro ⟨path, ⟨⟩⟩
        rfl
  | cons segment rest ih =>
      obtain ⟨hsegment, hrest⟩ := List.forall_mem_cons.mp hsegments
      have hstep (child : Tree) := @step_eq_ok_iff tree child segment htree.outline hsegment
      rw [followSegments]
      constructor
      · intro hfollow
        split at hfollow
        next child hchild =>
          obtain ⟨pos, hsteps⟩ := (hstep child).mp hchild
          have hwell := htree.child (List.mem_of_getElem? hsteps.getElem?)
          obtain ⟨path, hleads⟩ := (ih hwell hrest).mp hfollow
          exact ⟨pos :: path, .cons hsteps hleads⟩
        next => cases hfollow
      · rintro ⟨_, _ | ⟨hsteps, hleads⟩⟩
        have hwell := htree.child (List.mem_of_getElem? hsteps.getElem?)
        rw [(hstep _).mpr ⟨_, hsteps⟩]
        exact (ih hwell hrest).mpr ⟨_, hleads⟩

/-- Segments lead along one path only. -/
theorem Leads.unique (htree : tree.WellFormed) (hsegments : ∀ segment ∈ segments, segment ≠ "")
    (hleads : tree.Leads segments path node) {path' : List Nat} {node' : Tree}
    (hleads' : tree.Leads segments path' node') : path = path' ∧ node = node' := by
  induction hleads generalizing path' with
  | nil =>
      cases hleads'
      exact ⟨rfl, rfl⟩
  | @cons tree child node segment segments pos path hsteps _ ih =>
      obtain ⟨hsegment, hrest⟩ := List.forall_mem_cons.mp hsegments
      obtain _ | @⟨_, child', _, _, _, pos', path', hsteps', hbelow'⟩ := hleads'
      have hpos : pos = pos' := by
        cases hsteps with
        | member hobject hchild hkey =>
            have hnames := htree.outline.names hobject
            cases hsteps' with
            | member _ hchild' hkey' =>
                refine hnames.pos_unique hsegment ?_ ?_
                · exact (List.getElem?_map ..).trans (by rw [hchild, Option.map_some, hkey])
                · exact (List.getElem?_map ..).trans (by rw [hchild', Option.map_some, hkey'])
            | element harray _ _ =>
                rw [hobject] at harray
                cases harray
        | element harray _ hpos =>
            cases hsteps' with
            | member hobject _ _ =>
                rw [hobject] at harray
                cases harray
            | element _ _ hpos' => exact Except.ok.inj (hpos.symm.trans hpos')
      subst hpos
      have hchild := hsteps.getElem?
      rw [hsteps'.getElem?] at hchild
      obtain rfl := Option.some.inj hchild
      have hwell := htree.child (List.mem_of_getElem? hsteps.getElem?)
      obtain ⟨rfl, rfl⟩ := ih hwell hrest hbelow'
      exact ⟨rfl, rfl⟩

/-! ## The names on the way to a node -/

/-- The names of the nodes on a path below the root. A member of an object is named by its key, and
an element of an array by its position. -/
def route (tree : Tree) : List Nat → List String
  | [] => []
  | pos :: path =>
      match tree.children[pos]? with
      | some child => (if tree.kind = .object then child.key else toString pos) :: child.route path
      | none => []

/-- A node that has children and is no object is an array. -/
theorem kind_eq_array (hroot : tree.outline.WellFormed) (hchild : child ∈ tree.children)
    (hobject : tree.kind ≠ .object) : tree.kind = .array := by
  have hchildren : tree.keys ≠ [] := List.ne_nil_of_mem (List.mem_map_of_mem hchild)
  by_contra harray
  exact hchildren (hroot.childless (Kind.isContainer_eq_false harray hobject))

/-- The names on the way to a node lead to it. -/
theorem leads_route (htree : tree.WellFormed) (hnode : tree.subtree? path = some node)
    (hfits : ∀ pos ∈ path, pos < 2 ^ 64) : tree.Leads (tree.route path) path node := by
  induction path generalizing tree with
  | nil =>
      rw [subtree?_nil] at hnode
      cases hnode
      exact .nil
  | cons pos path ih =>
      obtain ⟨hpos, hrest⟩ := List.forall_mem_cons.mp hfits
      rw [subtree?_cons] at hnode
      obtain ⟨child, hchild, hbelow⟩ := Option.bind_eq_some_iff.mp hnode
      have hmem := List.mem_of_getElem? hchild
      simp only [route, hchild]
      refine .cons ?_ (ih (htree.child hmem) hbelow hrest)
      split
      next hobject => exact .member hobject hchild rfl
      next hobject =>
        refine .element ?_ hchild (position_toString hpos)
        exact kind_eq_array htree.outline hmem hobject

/-- The names on the way to a node of a document are not empty. If the keys on the way have no dots,
they have no dots either. -/
theorem name_of_mem_route (hdocumentary : tree.Throughout Documentary)
    (hnode : tree.subtree? path = some node)
    (hdots : ∀ above middle, above <+: path → tree.subtree? above = some middle →
      '.' ∉ middle.key.toList) :
    ∀ name ∈ tree.route path, name ≠ "" ∧ '.' ∉ name.toList := by
  induction path generalizing tree with
  | nil => exact nofun
  | cons pos path ih =>
      rw [subtree?_cons] at hnode
      obtain ⟨child, hchild, hbelow⟩ := Option.bind_eq_some_iff.mp hnode
      have hmem := List.mem_of_getElem? hchild
      obtain ⟨hroot, hchildren⟩ := throughout_iff.mp hdocumentary
      have hstep (below : List Nat) : tree.subtree? (pos :: below) = child.subtree? below := by
        rw [subtree?_cons, hchild, Option.bind_some]
      simp only [route, hchild]
      refine List.forall_mem_cons.mpr
        ⟨?_, ih (hchildren child hmem) hbelow fun above middle habove hmiddle => ?_⟩
      · split
        next hobject =>
          refine ⟨hroot.named hobject child hmem, hdots [pos] child ?_ ?_⟩
          · exact List.cons_prefix_cons.mpr ⟨rfl, List.nil_prefix⟩
          · rw [hstep, subtree?_nil]
        next => exact ⟨toString_ne_empty pos, dot_not_mem_toString pos⟩
      · exact hdots (pos :: above) middle (List.cons_prefix_cons.mpr ⟨rfl, habove⟩)
          (by rw [hstep, hmiddle])

end Tree

/-! ## Trees that are read -/

/-- A tree is decoded if it is read from a text or from a stream. -/
def Tree.Decoded (tree : Tree) : Prop :=
  ∃ options, (∃ text, decode options text = .ok tree) ∨
    ∃ bytes, (readStream options bytes).1 = .ok tree

/-- What is taken in from a stream are lines. -/
theorem Reader.exists_pieces_of_readLines {reader after : Reader} {bytes rest : List UInt8}
    (hread : reader.readLines bytes = (.ok (), after, rest)) :
    ∃ pieces, reader.takePieces pieces = (.ok (), after) := by
  fun_induction Reader.readLines reader bytes with
  | case1 reader =>
      cases hread
      exact ⟨[], rfl⟩
  | case2 reader bytes =>
      cases hread
      exact ⟨[], rfl⟩
  | case3 => cases hread
  | case4 reader bytes _ _ _ line _ after' hline ih =>
      obtain ⟨pieces, hpieces⟩ := ih hread
      refine ⟨.line line :: pieces, ?_⟩
      rw [takePieces, takePiece, hline]
      exact hpieces
  | case5 => cases hread

/-- A decoded tree is the tree of some text. -/
theorem Tree.Decoded.exists_text {tree : Tree} (htree : tree.Decoded) :
    ∃ options text, decode options text = .ok tree := by
  obtain ⟨options, ⟨text, hdecode⟩ | ⟨bytes, hread⟩⟩ := htree
  · exact ⟨options, text, hdecode⟩
  · unfold readStream at hread
    split at hread
    next reader rest hlines =>
      obtain ⟨pieces, hpieces⟩ := Reader.exists_pieces_of_readLines hlines
      rw [Reader.takePieces_eq (Reader.live_new options)] at hpieces
      have hfinish := Reader.finish_feed options (pieces.flatMap Piece.chars)
      rw [hpieces] at hfinish
      exact ⟨options, _, hfinish ▸ hread⟩
    next => cases hread

/-- A decoded tree is well-formed and has the shape of a document. -/
theorem Tree.Decoded.shaped {tree : Tree} (htree : tree.Decoded) :
    tree.WellFormed ∧ tree.JsonShaped := by
  obtain ⟨options, text, hdecode⟩ := htree.exists_text
  obtain ⟨part, value, hdocument, rfl⟩ := exists_document_of_decode hdecode
  have hclean := hdocument.clean options.autosort
  exact ⟨hclean.wellFormed, hclean.shaped⟩

/-- Paths address the nodes of a decoded tree. The names on the way to a node, with dots between
them, make a path that leads to this node along this very way, if the keys on the way have no dots.
Dots that are put in front of a path, behind it or next to a dot change nothing. A path leads to a
node if its segments lead to it one after the other, by key through objects and by position through
arrays, and they lead along one way only. Positions are numbers of 64 bits. -/
theorem paths_address_nodes {tree : Tree} (htree : tree.Decoded) :
    (∀ path node, tree.subtree? path = some node → (∀ pos ∈ path, pos < 2 ^ 64) →
      (∀ above middle, above <+: path → tree.subtree? above = some middle →
        '.' ∉ middle.key.toList) → tree.follow (".".intercalate (tree.route path)) = .ok node ∧
          tree.Leads (pathSegments (".".intercalate (tree.route path))) path node) ∧
      (∀ front back : String, Loose front.toList back.toList → ∀ count,
        tree.follow (front ++ String.ofList (List.replicate count '.') ++ back) =
          tree.follow (front ++ back)) ∧
      (∀ text node, tree.follow text = .ok node ↔
        ∃ path, tree.Leads (pathSegments text) path node) ∧
      ∀ text path path' node node', tree.Leads (pathSegments text) path node →
        tree.Leads (pathSegments text) path' node' →
          path = path' ∧ tree.subtree? path = some node' := by
  obtain ⟨hwell, hshaped⟩ := htree.shaped
  have hsegments (text : String) : ∀ segment ∈ pathSegments text, segment ≠ "" :=
    fun _ => ne_empty_of_mem_pathSegments
  have hfollow (text : String) (node : Tree) :
      tree.follow text = .ok node ↔ ∃ path, tree.Leads (pathSegments text) path node :=
    Tree.followSegments_eq_ok_iff hwell (hsegments text)
  refine ⟨fun path node hnode hfits hdots => ?_, fun front back hloose count => ?_, hfollow, ?_⟩
  · have hleads := Tree.leads_route hwell hnode hfits
    rw [← pathSegments_intercalate (Tree.name_of_mem_route hshaped.documentary hnode hdots)]
      at hleads
    exact ⟨(hfollow _ node).mpr ⟨path, hleads⟩, hleads⟩
  · simp only [Tree.follow, pathSegments_eq, String.toList_append, String.toList_ofList,
      dotted_dots hloose]
  · intro text path path' node node' hleads hleads'
    obtain ⟨rfl, rfl⟩ := hleads.unique hwell (hsegments text) hleads'
    exact ⟨rfl, hleads.subtree?⟩

/-- Members with numerals for keys, inside of an array and around it. -/
def numeralKeys : String :=
  "\x7b\"1\":[7,\x7b\"0\":null,\"1\":true\x7d]\x7d"

theorem numeralKeys_addressed :
    ∃ tree, decode {} numeralKeys = .ok tree ∧ tree.Decoded ∧
      tree.route [0, 1, 1] = ["1", "1", "1"] ∧
      ∃ node, tree.subtree? [0, 1, 1] = some node ∧ node.payload = .bool true ∧
        tree.follow "1.1.1" = .ok node ∧ tree.follow "...1.1.1" = .ok node ∧
        tree.Leads ["1", "1", "1"] [0, 1, 1] node := by
  obtain ⟨tree, hdecode⟩ : ∃ tree, decode {} numeralKeys = .ok tree := ⟨_, rfl⟩
  have htree : tree.Decoded := ⟨{}, .inl ⟨_, hdecode⟩⟩
  cases hdecode
  obtain ⟨haddress, hdots, -, -⟩ := paths_address_nodes htree
  obtain ⟨hfollow, hleads⟩ := haddress [0, 1, 1] _ rfl (by decide) (by
    intro above middle habove hmiddle
    have hmem : above ∈ [[], [0], [0, 1], [0, 1, 1]] := (List.mem_inits _ _).mpr habove
    fin_cases hmem <;> cases hmiddle <;> decide)
  refine ⟨_, rfl, htree, rfl, _, rfl, rfl, hfollow, ?_, hleads⟩
  exact (hdots "" "1.1.1" (.inl rfl) 3).trans hfollow

end KeyedTree
