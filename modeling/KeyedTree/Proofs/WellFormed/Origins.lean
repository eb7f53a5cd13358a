import KeyedTree.Blueprint
import KeyedTree.Json.Bridge
import KeyedTree.Proofs.WellFormed.Tree

/-! # Where trees come from

Trees are read from texts, converted from JSON values or built from blueprints. Whatever comes out
is well-formed.
-/

namespace KeyedTree

theorem map_eq_ok_iff {ε α β : Type} {f : α → β} {result : Except ε α} {value : β} :
    result.map f = .ok value ↔ ∃ source, result = .ok source ∧ f source = value := by
  cases result <;> simp [Except.map]

/-! ## Texts -/

/-- A container that is being read has a well-formed tree so far. -/
def Frame.WellFormed : Frame → Prop
  | .object node _ => node.WellFormed
  | .array node _ => node.WellFormed
  | .string _ => True
  | .literal .. => True

/-- A container around a value that is being read has a well-formed tree so far. -/
def Hole.WellFormed : Hole → Prop
  | .member node _ => node.WellFormed
  | .element node => node.WellFormed

/-- Whatever has been read of a document is well-formed. -/
def Progress.WellFormed : Progress → Prop
  | .fresh => True
  | .within top around => top.WellFormed ∧ ∀ hole ∈ around, hole.WellFormed
  | .done value => value.WellFormed
  | .failed _ => True

/-- What a frame makes of a character is well-formed. -/
def Turn.WellFormed : Turn → Prop
  | .stay frame => frame.WellFormed
  | .descend hole frame => hole.WellFormed ∧ frame.WellFormed
  | .close value => value.WellFormed
  | .closeBefore value => value.WellFormed

theorem Frame.wellFormed_of_start? {c : Char} {place : Cursor} {autosort : Bool} {frame : Frame}
    (hstart : start? c place autosort = some frame) : frame.WellFormed := by
  unfold start? at hstart
  split at hstart
  · cases hstart
    exact .node (.of_nil rfl rfl) (by simp)
  · split at hstart
    · cases hstart
      exact .node (.of_nil rfl rfl) (by simp)
    · split at hstart
      · cases hstart
        trivial
      · split at hstart
        · cases hstart
          trivial
        · cases hstart

theorem Frame.wellFormed_of_literalValue {start : Cursor} {token : String} {value : Tree}
    (hvalue : literalValue start token = .ok value) : value.WellFormed := by
  unfold literalValue at hvalue
  split at hvalue
  · cases hvalue
    exact .leaf _
  · cases hvalue

theorem Frame.wellFormed_of_feedObject {node : Tree} (hnode : node.WellFormed)
    {phase : ObjectPhase} {c : Char} {place : Cursor} {turn : Turn}
    (hfeed : feedObject node phase c place = .ok turn) : turn.WellFormed := by
  cases phase with
  | keyOrClose => grind [feedObject, Turn.WellFormed, Frame.WellFormed]
  | nextKey => grind [feedObject, Turn.WellFormed, Frame.WellFormed]
  | key body => grind [feedObject, Turn.WellFormed, Frame.WellFormed]
  | colon key => grind [feedObject, Turn.WellFormed, Frame.WellFormed]
  | value key =>
      simp only [feedObject] at hfeed
      split at hfeed
      · cases hfeed
        exact hnode
      · split at hfeed
        next frame hstart =>
          cases hfeed
          exact ⟨hnode, wellFormed_of_start? hstart⟩
        next => cases hfeed
  | commaOrClose => grind [feedObject, Turn.WellFormed, Frame.WellFormed]

theorem Frame.wellFormed_of_feedArray {node : Tree} (hnode : node.WellFormed)
    {phase : ArrayPhase} {c : Char} {place : Cursor} {turn : Turn}
    (hfeed : feedArray node phase c place = .ok turn) : turn.WellFormed := by
  have helement : ∀ {frame : Frame}, start? c place node.head.autosort = some frame →
      (Turn.descend (.element node) frame).WellFormed :=
    fun hstart => ⟨hnode, wellFormed_of_start? hstart⟩
  cases phase with
  | valueOrClose => grind [feedArray, Turn.WellFormed, Frame.WellFormed]
  | value => grind [feedArray, Turn.WellFormed, Frame.WellFormed]
  | commaOrClose => grind [feedArray, Turn.WellFormed, Frame.WellFormed]

/-- A frame turns what is well-formed into what is well-formed. -/
theorem Frame.WellFormed.feed {frame : Frame} (hframe : frame.WellFormed) {c : Char}
    {place : Cursor} {turn : Turn} (hfeed : frame.feed c place = .ok turn) : turn.WellFormed := by
  cases frame with
  | object node phase => exact wellFormed_of_feedObject hframe hfeed
  | array node phase => exact wellFormed_of_feedArray hframe hfeed
  | string body =>
      simp only [Frame.feed] at hfeed
      split at hfeed
      · cases hfeed
      · cases hfeed
        trivial
      · cases hfeed
        exact Tree.WellFormed.leaf _
  | literal start token =>
      simp only [Frame.feed] at hfeed
      split at hfeed
      · cases hfeed
        trivial
      · obtain ⟨value, hvalue, rfl⟩ := map_eq_ok_iff.mp hfeed
        exact wellFormed_of_literalValue hvalue

/-- A container that takes a value in stays well-formed. -/
theorem Hole.WellFormed.fill {hole : Hole} (hhole : hole.WellFormed) {value : Tree}
    (hvalue : value.WellFormed) {place : Cursor} {frame : Frame}
    (hfill : hole.fill value place = .ok frame) : frame.WellFormed := by
  cases hole with
  | member node key =>
      have hjoined := Tree.WellFormed.attachKeyed hhole key hvalue
      simp only [Hole.fill] at hfill
      split at hfill
      · cases hfill
      · split at hfill
        next joined hresult =>
          cases hfill
          rwa [hresult] at hjoined
        next => cases hfill
  | element node =>
      have hjoined := Tree.WellFormed.append hhole hvalue
      simp only [Hole.fill] at hfill
      split at hfill
      next joined hresult =>
        cases hfill
        rwa [hresult] at hjoined
      next => cases hfill

theorem Progress.wellFormed_of_deliver {value : Tree} (hvalue : value.WellFormed)
    {around : List Hole} (haround : ∀ hole ∈ around, hole.WellFormed) {place : Cursor}
    {progress : Progress} (hdeliver : deliver value around place = .ok progress) :
    progress.WellFormed := by
  cases around with
  | nil =>
      cases hdeliver
      exact hvalue
  | cons hole outer =>
      obtain ⟨hhole, houter⟩ := List.forall_mem_cons.mp haround
      obtain ⟨frame, hfill, rfl⟩ := map_eq_ok_iff.mp hdeliver
      exact ⟨hhole.fill hvalue hfill, houter⟩

/-- A character is taken in where the value goes on or ends with it. A literal ends in front of the
character, which then goes on to the container around the literal; what is kept on the way holds
where the character is taken in. -/
theorem Progress.feed_induction {options : ReadOptions} {c : Char} {place : Cursor}
    (holds : Frame → List Hole → Prop) (goal : Progress × Bool → Prop)
    (hstay : ∀ {top around frame}, holds top around → top.feed c place = .ok (.stay frame) →
      goal (.within frame around, false))
    (hdescend : ∀ {top around hole frame}, holds top around →
      top.feed c place = .ok (.descend hole frame) → goal (.within frame (hole :: around), false))
    (hclose : ∀ {top around value last}, holds top around → top.feed c place = .ok (.close value) →
      deliver value around place = .ok last → goal (last, false))
    (hend : ∀ {top value stopped}, holds top [] → top.feed c place = .ok (.closeBefore value) →
      options.stoppers.contains c = stopped → (stopped || isBlank c) = true →
      goal (.done value, stopped))
    (hpass : ∀ {top hole outer value frame}, holds top (hole :: outer) →
      top.feed c place = .ok (.closeBefore value) → hole.fill value place = .ok frame →
      holds frame outer)
    (hstop : ∀ {top around}, holds top around → options.stoppers.contains c = true →
      goal (.within top around, true))
    {top : Frame} {around : List Hole} (hholds : holds top around) {next : Progress × Bool}
    (hfeed : Progress.feed options c place top around = .ok next) : goal next := by
  -- the induction is on the containers around, since a literal that ends hands the character on to
  -- the next
  induction around generalizing top with
  | nil =>
      unfold Progress.feed at hfeed
      split at hfeed
      next => cases hfeed
      next frame hturn =>
        cases hfeed
        exact hstay hholds hturn
      next hole frame hturn =>
        cases hfeed
        exact hdescend hholds hturn
      next value hturn =>
        obtain ⟨last, hdeliver, rfl⟩ := map_eq_ok_iff.mp hfeed
        exact hclose hholds hturn hdeliver
      next value hturn =>
        simp only at hfeed
        split at hfeed
        next hstops =>
          cases hfeed
          exact hend hholds hturn hstops rfl
        next hstops =>
          split at hfeed
          next hblank =>
            cases hfeed
            exact hend hholds hturn (Bool.eq_false_iff.mpr hstops) hblank
          next => cases hfeed
  | cons hole outer ih =>
      unfold Progress.feed at hfeed
      split at hfeed
      next => cases hfeed
      next frame hturn =>
        cases hfeed
        exact hstay hholds hturn
      next inner frame hturn =>
        cases hfeed
        exact hdescend hholds hturn
      next value hturn =>
        obtain ⟨last, hdeliver, rfl⟩ := map_eq_ok_iff.mp hfeed
        exact hclose hholds hturn hdeliver
      next value hturn =>
        simp only at hfeed
        split at hfeed
        next => cases hfeed
        next frame hfill =>
          have hframe := hpass hholds hturn hfill
          split at hfeed
          next hstops =>
            cases hfeed
            exact hstop hframe hstops
          next => exact ih hframe hfeed

theorem Progress.WellFormed.feed {options : ReadOptions} {c : Char} {place : Cursor} {top : Frame}
    {around : List Hole} (htop : top.WellFormed) (haround : ∀ hole ∈ around, hole.WellFormed)
    {next : Progress × Bool} (hfeed : Progress.feed options c place top around = .ok next) :
    next.1.WellFormed := by
  have hwithin : (Progress.within top around).WellFormed := ⟨htop, haround⟩
  refine Progress.feed_induction (fun top around => (Progress.within top around).WellFormed)
    (fun next => next.1.WellFormed) ?_ ?_ ?_ ?_ ?_ ?_ hwithin hfeed
  · intro top around frame hwithin hturn
    exact ⟨hwithin.1.feed hturn, hwithin.2⟩
  · intro top around hole frame hwithin hturn
    obtain ⟨hhole, hframe⟩ := hwithin.1.feed hturn
    exact ⟨hframe, List.forall_mem_cons.mpr ⟨hhole, hwithin.2⟩⟩
  · intro top around value last hwithin hturn hdeliver
    exact wellFormed_of_deliver (hwithin.1.feed hturn) hwithin.2 hdeliver
  · intro top value stopped hwithin hturn _ _
    exact hwithin.1.feed hturn
  · intro top hole outer value frame hwithin hturn hfill
    obtain ⟨hhole, houter⟩ := List.forall_mem_cons.mp hwithin.2
    exact ⟨hhole.fill (hwithin.1.feed hturn) hfill, houter⟩
  · intro top around hwithin _
    exact hwithin

namespace Reader

/-- What a reader has read so far stays well-formed with every character. -/
theorem wellFormed_feedChar {reader : Reader} (hreader : reader.progress.WellFormed) (c : Char) :
    (reader.feedChar c).2.progress.WellFormed := by
  unfold feedChar
  split
  · exact hreader
  · split
    · exact hreader
    · simp only
      split
      next progress stopped hstep =>
        simp only [Reader.step] at hstep
        split at hstep
        · cases hstep
        · grind [Progress.WellFormed, Frame.wellFormed_of_start?]
        · grind [Progress.WellFormed]
        next top around hwithin =>
          rw [hwithin] at hreader
          split at hstep
          · cases hstep
            exact hreader
          · exact Progress.WellFormed.feed hreader.1 hreader.2 hstep
      next => trivial

theorem wellFormed_feed {reader : Reader} (hreader : reader.progress.WellFormed)
    (text : List Char) : (reader.feed text).2.progress.WellFormed := by
  induction text generalizing reader with
  | nil => exact hreader
  | cons c rest ih =>
      have hnext := wellFormed_feedChar hreader c
      unfold feed
      split
      · exact hreader
      · split
        next result hresult =>
          rw [hresult] at hnext
          exact ih hnext
        next fault result hresult => rwa [hresult] at hnext

theorem wellFormed_of_finish {reader : Reader} (hreader : reader.progress.WellFormed) {tree : Tree}
    (hfinish : reader.finish = .ok tree) : tree.WellFormed := by
  unfold finish at hfinish
  split at hfinish
  · cases hfinish
  next value hdone =>
    cases hfinish
    rwa [hdone] at hreader
  · cases hfinish
  · exact Frame.wellFormed_of_literalValue hfinish
  · cases hfinish

end Reader

/-- A tree that is read from a text is well-formed. -/
theorem wellFormed_of_decode {options : ReadOptions} {text : String} {tree : Tree}
    (hdecode : decode options text = .ok tree) : tree.WellFormed := by
  have hstart : (Reader.new options).progress.WellFormed := trivial
  have hfed := Reader.wellFormed_feed hstart text.toList
  unfold decode at hdecode
  split at hdecode
  next reader hreader =>
    rw [hreader] at hfed
    exact Reader.wellFormed_of_finish hfed hdecode
  next => cases hdecode

/-! ## JSON values -/

namespace Json

mutual

/-- A tree that is converted from a JSON value is well-formed. -/
theorem wellFormed_of_toTree :
    ∀ (json : Json) {tree : Tree}, json.toTree = .ok tree → tree.WellFormed
  | .null, tree, htree => by cases htree; exact .leaf _
  | .bool value, tree, htree => by cases htree; exact .leaf _
  | .number value, tree, htree => by
      simp only [toTree] at htree
      split at htree
      · cases htree
        exact .leaf _
      · cases htree
  | .string value, tree, htree => by cases htree; exact .leaf _
  | .array items, tree, htree => wellFormed_of_itemsToTree items (.leaf _) htree
  | .object members, tree, htree => wellFormed_of_membersToTree members (.leaf _) htree

theorem wellFormed_of_itemsToTree :
    ∀ (items : List Json) {start tree : Tree}, start.WellFormed →
      itemsToTree start items = .ok tree → tree.WellFormed
  | [], start, tree, hstart, htree => by cases htree; exact hstart
  | item :: rest, start, tree, hstart, htree => by
      simp only [itemsToTree] at htree
      split at htree
      · cases htree
      next child hchild =>
        have hjoined := hstart.append (wellFormed_of_toTree item hchild)
        split at htree
        · cases htree
        next joined hresult =>
          rw [hresult] at hjoined
          exact wellFormed_of_itemsToTree rest hjoined htree

theorem wellFormed_of_membersToTree :
    ∀ (members : List (String × Json)) {start tree : Tree}, start.WellFormed →
      membersToTree start members = .ok tree → tree.WellFormed
  | [], start, tree, hstart, htree => by cases htree; exact hstart
  | (key, value) :: rest, start, tree, hstart, htree => by
      simp only [membersToTree] at htree
      split at htree
      · cases htree
      · split at htree
        · cases htree
        next child hchild =>
          have hjoined := hstart.attachKeyed key (wellFormed_of_toTree value hchild)
          split at htree
          · cases htree
          next joined hresult =>
            rw [hresult] at hjoined
            exact wellFormed_of_membersToTree rest hjoined htree

end

end Json

/-! ## Blueprints -/

namespace Blueprint

mutual

/-- A tree that is built from a blueprint is well-formed. -/
theorem wellFormed_of_build :
    ∀ (blueprint : Blueprint) {tree : Tree}, blueprint.build = .ok tree → tree.WellFormed
  | .document text, tree, htree => wellFormed_of_decode htree
  | .node payload key autosort overwrite children, tree, htree => by
      have hroot : (Tree.node { Head.holding payload with autosort, overwrite } []).WellFormed :=
        .node (.of_nil rfl payload.suits) (by simp)
      simp only [build] at htree
      split at htree
      next key =>
        obtain ⟨built, hbuilt, rfl⟩ := map_eq_ok_iff.mp htree
        exact (wellFormed_of_buildRow children _ hroot hbuilt).with_key key
      next => exact wellFormed_of_buildRow children _ hroot htree

theorem wellFormed_of_buildRow :
    ∀ (row : List Blueprint) (elements : Bool) {start tree : Tree}, start.WellFormed →
      buildRow elements start row = .ok tree → tree.WellFormed
  | [], elements, start, tree, hstart, htree => by cases htree; exact hstart
  | blueprint :: rest, elements, start, tree, hstart, htree => by
      simp only [buildRow] at htree
      split at htree
      · cases htree
      next child hchild =>
        have hguest := wellFormed_of_build blueprint hchild
        have hjoined :
            (if elements then start.append child else start.attach child).2.WellFormed := by
          cases elements
          · exact hstart.attach hguest
          · exact hstart.append hguest
        split at htree
        next pos joined hresult =>
          rw [hresult] at hjoined
          exact wellFormed_of_buildRow rest elements hjoined htree
        next => cases htree

end

end Blueprint

end KeyedTree
