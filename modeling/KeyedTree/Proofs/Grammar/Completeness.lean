import KeyedTree.Proofs.Grammar.Soundness

/-! # What is derivable is read

The reader takes in every text that the grammar derives, and comes to the tree that the text
denotes. A literal is not complete until a character follows that does not belong to it, so a value
counts as read also while such a character is still awaited.
-/

namespace KeyedTree

open Grammar

/-! ## Reaching a state -/

namespace Progress

variable {progress after last : Progress} {text rest gap : List Char} {goal : Progress → Prop}
  {c : Char} {around : List Hole}

/-- What a document comes to with one more character. -/
def next (progress : Progress) (c : Char) (place : Cursor) : Except Fault (Progress × Bool) :=
  (Reader.plain .start progress).step c place

/-- A text leads a reader in one state to a state with a property, wherever in the document the text
stands. -/
def Reaches (progress : Progress) (text : List Char) (goal : Progress → Prop) : Prop :=
  ∀ cursor, ∃ cursor' last, (Reader.plain cursor progress).feed text =
    (.ok (), Reader.plain cursor' last) ∧ goal last

theorem Reaches.nil (hgoal : goal progress) : progress.Reaches [] goal :=
  fun cursor => ⟨cursor, progress, rfl, hgoal⟩

/-- A character leads to a state that may depend on the place of the character. -/
theorem Reaches.cons
    (hstep : ∀ place, ∃ after, progress.next c place = .ok (after, false) ∧
      after.Reaches rest goal) :
    progress.Reaches (c :: rest) goal := by
  intro cursor
  obtain ⟨after, hafter, hrest⟩ := hstep (cursor.advance c)
  obtain ⟨cursor', last, hfeed, hgoal⟩ := hrest (cursor.advance c)
  have hstep :
      (Reader.plain cursor progress).step c (cursor.advance c) = .ok (after, false) := hafter
  exact ⟨cursor', last, (Reader.feed_cons_of_step hstep).trans hfeed, hgoal⟩

theorem Reaches.step (hstep : ∀ place, progress.next c place = .ok (after, false))
    (hrest : after.Reaches rest goal) : progress.Reaches (c :: rest) goal :=
  .cons fun place => ⟨after, hstep place, hrest⟩

theorem Reaches.append (htext : progress.Reaches text fun middle => middle.Reaches rest goal) :
    progress.Reaches (text ++ rest) goal := by
  intro cursor
  obtain ⟨middle, state, hfeed, hrest⟩ := htext cursor
  obtain ⟨cursor', last, hfeed', hgoal⟩ := hrest middle
  refine ⟨cursor', last, ?_, hgoal⟩
  rw [Reader.feed_append, hfeed]
  exact hfeed'

theorem Reaches.imp {other : Progress → Prop} (htext : progress.Reaches text goal)
    (himp : ∀ last, goal last → other last) : progress.Reaches text other := by
  intro cursor
  obtain ⟨cursor', last, hfeed, hgoal⟩ := htext cursor
  exact ⟨cursor', last, hfeed, himp last hgoal⟩

/-! ### Single characters -/

variable {top frame : Frame} {hole : Hole} {value : Tree} {place : Cursor}

theorem next_within (c : Char) (place : Cursor) :
    (within top around).next c place = feed {} c place top around := by
  simp only [next, Reader.step, Reader.plain, List.contains_nil, Bool.and_false, Bool.false_eq_true,
    if_false]

theorem next_of_stay (hturn : top.feed c place = .ok (.stay frame)) :
    (within top around).next c place = .ok (within frame around, false) := by
  rw [next_within]
  unfold feed
  rw [hturn]

theorem next_of_descend (hturn : top.feed c place = .ok (.descend hole frame)) :
    (within top around).next c place = .ok (within frame (hole :: around), false) := by
  rw [next_within]
  unfold feed
  rw [hturn]

theorem next_of_close (hturn : top.feed c place = .ok (.close value))
    (hdeliver : deliver value around place = .ok last) :
    (within top around).next c place = .ok (last, false) := by
  rw [next_within]
  unfold feed
  rw [hturn]
  simp only [hdeliver]
  rfl

theorem next_done (c : Char) (place : Cursor) :
    (done value).next c place =
      if isBlank c then .ok (done value, false) else .error (.malformed place (.afterEnd c)) := by
  simp only [next, Reader.step, Reader.plain, List.contains_nil, Bool.false_or]

/-- A state skips blanks. -/
def SkipsBlanks (progress : Progress) : Prop :=
  ∀ c, isBlank c = true → ∀ place, progress.next c place = .ok (progress, false)

theorem SkipsBlanks.reaches (hskips : progress.SkipsBlanks) (hgap : Blanks gap)
    (hgoal : goal progress) : progress.Reaches gap goal := by
  induction gap with
  | nil => exact .nil hgoal
  | cons c rest ih =>
      obtain ⟨hc, hrest⟩ := List.forall_mem_cons.mp hgap
      exact .step (hskips c (isBlank_iff.mpr hc)) (ih hrest)

theorem skipsBlanks_fresh : fresh.SkipsBlanks := by
  intro c hc place
  simp only [next, Reader.step, Reader.plain, List.contains_nil, hc, Bool.or_true, if_true]

theorem skipsBlanks_done (value : Tree) : (done value).SkipsBlanks := by
  intro c hc place
  rw [next_done, if_pos hc]

theorem skipsBlanks_object (node : Tree) {phase : ObjectPhase} (around : List Hole)
    (hphase : ∀ body, phase ≠ .key body) : (within (.object node phase) around).SkipsBlanks :=
  fun _ hc _ => next_of_stay (Frame.feedObject_blank hphase hc)

theorem skipsBlanks_array (node : Tree) (phase : ArrayPhase) (around : List Hole) :
    (within (.array node phase) around).SkipsBlanks :=
  fun _ hc _ => next_of_stay (Frame.feedArray_blank phase hc)

/-! ### Literals that are not complete -/

/-- A state is another one already, or it will be with the next character that belongs to no
literal. -/
inductive Settles : Progress → Progress → Prop
  | refl (progress : Progress) : Settles progress progress
  | literal {start : Cursor} {token : String} {payload : Payload} {around : List Hole}
      {last : Progress} : Literal.payload token = .ok payload →
      (∀ place, deliver (.leaf payload) around place = .ok last) →
      Settles (within (.literal start token) around) last

/-- The next character that belongs to no literal makes no difference between the two. -/
theorem Settles.next_eq (hsettles : progress.Settles last) (hc : Literal.continues c = false)
    (place : Cursor) : progress.next c place = last.next c place := by
  cases hsettles with
  | refl => rfl
  | @literal start token payload around _ hpayload hdeliver =>
      -- the character closes the literal and goes on to the container around it
      have hturn :
          (Frame.literal start token).feed c place = .ok (.closeBefore (.leaf payload)) := by
        simp only [Frame.feed, hc, Bool.false_eq_true, if_false, Frame.literalValue, hpayload]
        rfl
      rw [next_within]
      unfold feed
      rw [hturn]
      specialize hdeliver place
      cases around with
      | nil =>
          cases hdeliver
          rw [next_done]
          rfl
      | cons hole outer =>
          obtain ⟨frame, hfill, rfl⟩ := map_eq_ok_iff.mp hdeliver
          rw [next_within]
          simp only [hfill]
          rfl

theorem Settles.reaches_step (hsettles : progress.Settles last) (hc : Literal.continues c = false)
    (hstep : ∀ place, last.next c place = .ok (after, false)) (hrest : after.Reaches rest goal) :
    progress.Reaches (c :: rest) goal :=
  .step (fun place => (hsettles.next_eq hc place).trans (hstep place)) hrest

/-- Blanks behind a literal complete it. -/
theorem Settles.reaches_blanks (hsettles : progress.Settles last) (hskips : last.SkipsBlanks)
    (hgap : Blanks gap) : progress.Reaches gap fun other => other.Settles last := by
  cases gap with
  | nil => exact .nil hsettles
  | cons c rest =>
      obtain ⟨hc, hrest⟩ := List.forall_mem_cons.mp hgap
      have hcontinues : Literal.continues c = false := by
        rcases hc with rfl | rfl | rfl | rfl <;> rfl
      exact hsettles.reaches_step hcontinues (hskips c (isBlank_iff.mpr hc))
        (hskips.reaches hrest (.refl last))

/-- The last character of a value delivers it. -/
theorem reaches_close (hturn : ∀ place, top.feed c place = .ok (.close value))
    (hdeliver : ∀ place, deliver value around place = .ok last) :
    (within top around).Reaches [c] (·.Settles last) :=
  .step (fun place => next_of_close (hturn place) (hdeliver place)) (.nil (.refl last))

/-- A container that is complete but for a literal at its end is delivered by its last character. -/
theorem Settles.reaches_close (hsettles : progress.Settles (within top around))
    (hc : Literal.continues c = false) (hturn : ∀ place, top.feed c place = .ok (.close value))
    (hdeliver : ∀ place, deliver value around place = .ok last) :
    progress.Reaches [c] (·.Settles last) :=
  hsettles.reaches_step hc (fun place => next_of_close (hturn place) (hdeliver place))
    (.nil (.refl last))

/-! ### Values to come -/

/-- A state waits for a value, which is to come into the containers around it. -/
def Expects (progress : Progress) (around : List Hole) : Prop :=
  ∀ c place frame, Frame.start? c place false = some frame →
    progress.next c place = .ok (within frame around, false)

/-- No value begins with a blank or with a bracket that closes. -/
theorem not_blank_of_start? (hstart : Frame.start? c place false = some frame) :
    isBlank c = false ∧ c ≠ ']' := by
  constructor
  · apply Bool.eq_false_iff.mpr
    intro hblank
    rcases isBlank_iff.mp hblank with rfl | rfl | rfl | rfl <;> cases hstart
  · rintro rfl
    cases hstart

theorem expects_fresh : fresh.Expects [] := by
  intro c place frame hstart
  obtain ⟨hblank, _⟩ := not_blank_of_start? hstart
  simp only [next, Reader.step, Reader.plain, List.contains_nil, hblank, Bool.or_false,
    Bool.false_eq_true, if_false, hstart]

theorem expects_member (members : List Tree) (key : String) (around : List Hole) :
    (within (.object (objectOf members) (.value key)) around).Expects
      (.member (objectOf members) key :: around) := by
  intro c place frame hstart
  refine next_of_descend ?_
  obtain ⟨hblank, _⟩ := not_blank_of_start? hstart
  have hstart' : Frame.start? c place (objectOf members).head.autosort = some frame := hstart
  simp only [Frame.feed, Frame.feedObject, hblank, Bool.false_eq_true, if_false, hstart']

theorem expects_element (elements : List Tree) {phase : ArrayPhase} (around : List Hole)
    (hphase : phase ≠ .commaOrClose) :
    (within (.array (arrayOf elements) phase) around).Expects
      (.element (arrayOf elements) :: around) := by
  intro c place frame hstart
  refine next_of_descend ?_
  obtain ⟨hblank, hclose⟩ := not_blank_of_start? hstart
  have hstart' : Frame.start? c place (arrayOf elements).head.autosort = some frame := hstart
  cases phase with
  | commaOrClose => exact absurd rfl hphase
  | _ =>
      simp only [Frame.feed, Frame.feedArray, hblank, hclose, Bool.false_eq_true, if_false, hstart']

theorem Expects.reaches (hexpects : progress.Expects around)
    (hstart : ∀ place, Frame.start? c place false = some frame)
    (hrest : (within frame around).Reaches rest goal) : progress.Reaches (c :: rest) goal :=
  .step (fun place => hexpects c place frame (hstart place)) hrest

/-! ### Tokens -/

/-- A frame that takes in a quoted text goes through the spelling of the text. -/
theorem reaches_quoted {body next : Quoted} {raw : List Char} (wrap : Quoted → Frame)
    (hwrap : ∀ body next c place, body.feed c = .ok (.more next) →
      (wrap body).feed c place = .ok (.stay (wrap next)))
    (hreads : body.Reads raw next) (hrest : (within (wrap next) around).Reaches rest goal) :
    (within (wrap body) around).Reaches (raw ++ rest) goal := by
  induction hreads with
  | nil body => exact hrest
  | more hfeed _ ih => exact .step (fun place => next_of_stay (hwrap _ _ _ place hfeed)) (ih hrest)

/-- A string is read to its closing quote. -/
theorem reaches_string {body : List Char} {text : String} (hbody : Spells body text)
    (hdeliver : ∀ place, deliver (.leaf (.string text)) around place = .ok last) :
    (within (.string {}) around).Reaches (body ++ ['"']) (·.Settles last) := by
  apply reaches_quoted .string ?_ (Quoted.reads_of_spells hbody)
  · have hclose : ∀ place, (Frame.string ⟨text, .none, none⟩).feed '"' place =
        .ok (.close (.leaf (.string text))) := fun place => rfl
    exact reaches_close hclose hdeliver
  · intro body next c place hfeed
    simp only [Frame.feed, hfeed]

/-- A key is read to its closing quote. -/
theorem reaches_key {node : Tree} {body : List Char} {key : String} (hbody : Spells body key)
    (hkey : key ≠ "")
    (hrest : (within (.object node (.colon key)) around).Reaches rest goal) :
    (within (.object node (.key {})) around).Reaches (body ++ '"' :: rest) goal := by
  apply reaches_quoted (fun body => .object node (.key body)) ?_ (Quoted.reads_of_spells hbody)
  · refine .step (fun place => next_of_stay ?_) hrest
    simp only [Frame.feed, Frame.feedObject, Quoted.feed_quote, hkey, if_false]
  · intro body next c place hfeed
    simp only [Frame.feed, Frame.feedObject, hfeed]

/-- A literal goes on with every character that belongs to it. -/
theorem reaches_run {start : Cursor} {token : String}
    (htext : ∀ c ∈ text, Literal.continues c = true) :
    (within (.literal start token) around).Reaches text
      (· = within (.literal start (token ++ String.ofList text)) around) := by
  induction text generalizing token with
  | nil =>
      rw [String.ofList_nil, String.append_empty]
      exact .nil rfl
  | cons c rest ih =>
      obtain ⟨hc, hrest⟩ := List.forall_mem_cons.mp htext
      have hturn : ∀ place, (Frame.literal start token).feed c place =
          .ok (.stay (.literal start (token.push c))) := fun place => if_pos hc
      have htoken : token.push c ++ String.ofList rest = token ++ String.ofList (c :: rest) := by
        rw [← String.toList_inj]
        simp
      exact .step (fun place => next_of_stay (hturn place)) (htoken ▸ ih hrest)

/-- A literal goes on to its last character, and no further. -/
theorem reaches_literal {start : Cursor} {token : String} {payload : Payload}
    (hrest : ∀ other ∈ rest, Literal.continues other = true)
    (hpayload : Literal.payload (token ++ String.ofList rest) = .ok payload)
    (hdeliver : ∀ place, deliver (.leaf payload) around place = .ok last) :
    (within (.literal start token) around).Reaches rest (·.Settles last) := by
  refine (reaches_run hrest).imp ?_
  rintro _ rfl
  exact .literal hpayload hdeliver

/-- A character that begins a literal begins no other value. -/
theorem start?_of_starts (hstarts : Literal.starts c = true) (place : Cursor) :
    Frame.start? c place false = some (.literal place (String.singleton c)) := by
  have hother : c ≠ '{' ∧ c ≠ '[' ∧ c ≠ '"' := by
    refine ⟨?_, ?_, ?_⟩ <;> rintro rfl <;> cases hstarts
  obtain ⟨hobject, harray, hquote⟩ := hother
  unfold Frame.start?
  rw [if_neg hobject, if_neg harray, if_neg hquote, if_pos hstarts]

/-- Where a value is expected, a literal is read. -/
theorem Expects.reaches_literal {token : List Char} {payload : Payload}
    (hexpects : progress.Expects around) (hliteral : Grammar.Literal token payload)
    (hdeliver : ∀ place, deliver (.leaf payload) around place = .ok last) :
    progress.Reaches token (·.Settles last) := by
  obtain ⟨c, rest, rfl, hstarts, hrest⟩ := Literal.continues_of_literal hliteral
  have hpayload : Literal.payload (String.singleton c ++ String.ofList rest) = .ok payload := by
    refine Literal.payload_eq_ok_iff.mpr ?_
    rwa [String.toList_append, String.toList_singleton, String.toList_ofList]
  exact .cons fun place => ⟨_, hexpects c place _ (start?_of_starts hstarts place),
    Progress.reaches_literal hrest hpayload hdeliver⟩

/-! ### Values between blanks -/

/-- A value that is read is also read with blanks around it. -/
theorem Reaches.between {gap₁ gap₂ : List Char} (hvalue : progress.Reaches text (·.Settles last))
    (hskips : progress.SkipsBlanks) (hgap₁ : Blanks gap₁) (hafter : last.SkipsBlanks)
    (hgap₂ : Blanks gap₂) : progress.Reaches (gap₁ ++ (text ++ gap₂)) (·.Settles last) :=
  .append (hskips.reaches hgap₁
    (.append (hvalue.imp fun _ hsettles => hsettles.reaches_blanks hafter hgap₂)))

end Progress

/-! ## Derivations -/

namespace Grammar

open Progress

section

variable {around : List Hole} {members elements : List Tree} {value : Tree} {key : String}

/-- A key and what stands around it is read up to the value. -/
theorem reaches_memberKey {phase : ObjectPhase} {gap₁ body gap₂ rest : List Char}
    {goal : Progress → Prop} (hphase : phase = .keyOrClose ∨ phase = .nextKey)
    (hgap₁ : Blanks gap₁) (hbody : Spells body key) (hkey : key ≠ "") (hgap₂ : Blanks gap₂)
    (hrest : (within (.object (objectOf members) (.value key)) around).Reaches rest goal) :
    (within (.object (objectOf members) phase) around).Reaches
      (gap₁ ++ '"' :: (body ++ '"' :: (gap₂ ++ ':' :: rest))) goal := by
  have hskips : (within (.object (objectOf members) phase) around).SkipsBlanks :=
    skipsBlanks_object _ around (by rcases hphase with rfl | rfl <;> nofun)
  have hquote : ∀ place, (Frame.object (objectOf members) phase).feed '"' place =
      .ok (.stay (.object (objectOf members) (.key {}))) := by
    rcases hphase with rfl | rfl <;> exact fun place => rfl
  have hcolon : ∀ place, (Frame.object (objectOf members) (.colon key)).feed ':' place =
      .ok (.stay (.object (objectOf members) (.value key))) := fun place => rfl
  have hskips₂ : (within (.object (objectOf members) (.colon key)) around).SkipsBlanks :=
    skipsBlanks_object _ around nofun
  exact .append <| hskips.reaches hgap₁ <| .step (fun place => next_of_stay (hquote place)) <|
    reaches_key hbody hkey <| .append <| hskips₂.reaches hgap₂ <|
    .step (fun place => next_of_stay (hcolon place)) hrest

/-- A complete value of a member comes into its object. -/
theorem deliver_member (hvalue : value.head.autosort = false) (hkey : key ≠ "")
    (hkeys : ((members ++ [value.withKey key]).map Tree.key).Nodup) (place : Cursor) :
    deliver value (.member (objectOf members) key :: around) place =
      .ok (within (.object (objectOf (members ++ [value.withKey key])) .commaOrClose) around) := by
  rw [List.map_append, List.nodup_append] at hkeys
  have hnew : key ∉ members.map Tree.key := fun hmem =>
    hkeys.2.2 key hmem key (List.mem_singleton.mpr rfl) rfl
  rw [deliver, fill_member hkeys.1 hkey hvalue, if_neg hnew]
  rfl

theorem deliver_element (hvalue : value.head.autosort = false) (place : Cursor) :
    deliver value (.element (arrayOf elements) :: around) place =
      .ok (within (.array (arrayOf (elements ++ [value])) .commaOrClose) around) := by
  rw [deliver, fill_element hvalue]
  rfl

theorem Element.autosort_eq_false {text : List Char} (helement : Element text value) :
    value.head.autosort = false := by
  cases helement with
  | mk _ hvalue _ => exact hvalue.autosort_eq_false

end

mutual

/-- Where a value is expected, a text that denotes one is read, and the value delivered. -/
theorem Value.reaches {text : List Char} {tree : Tree} {progress last : Progress}
    {around : List Hole} : Value text tree → progress.Expects around →
      (∀ place, deliver tree around place = .ok last) → progress.Reaches text (·.Settles last)
  | .string hbody, hexpects, hdeliver =>
      hexpects.reaches (fun _ => rfl) (reaches_string hbody hdeliver)
  | .literal hliteral, hexpects, hdeliver => hexpects.reaches_literal hliteral hdeliver
  | .emptyObject hgap, hexpects, hdeliver => by
      have hskips : (within (.object (objectOf []) .keyOrClose) around).SkipsBlanks :=
        skipsBlanks_object _ around nofun
      refine hexpects.reaches (fun _ => rfl) (.append (hskips.reaches hgap ?_))
      exact reaches_close (fun _ => rfl) hdeliver
  | .object hmembers hkeys, hexpects, hdeliver => by
      refine hexpects.reaches (fun _ => rfl)
        (.append ((Members.reaches hmembers hkeys).imp fun _ hsettles => ?_))
      exact hsettles.reaches_close rfl (fun _ => rfl) hdeliver
  | .emptyArray hgap, hexpects, hdeliver => by
      have hskips : (within (.array (arrayOf []) .valueOrClose) around).SkipsBlanks :=
        skipsBlanks_array _ _ around
      refine hexpects.reaches (fun _ => rfl) (.append (hskips.reaches hgap ?_))
      exact reaches_close (fun _ => rfl) hdeliver
  | .array helements, hexpects, hdeliver => by
      refine hexpects.reaches (fun _ => rfl)
        (.append ((Elements.reaches helements).imp fun _ hsettles => ?_))
      exact hsettles.reaches_close rfl (fun _ => rfl) hdeliver

/-- Where a key is expected, a member is read. -/
theorem Member.reaches {text : List Char} {member : Tree} {around : List Hole}
    {members : List Tree} {phase : ObjectPhase} : Member text member →
      phase = .keyOrClose ∨ phase = .nextKey → ((members ++ [member]).map Tree.key).Nodup →
      (within (.object (objectOf members) phase) around).Reaches text
        (·.Settles (within (.object (objectOf (members ++ [member])) .commaOrClose) around))
  | .mk hgap₁ hbody hkey hgap₂ hgap₃ hvalue hgap₄, hphase, hkeys => by
      have hreaches := Value.reaches hvalue (expects_member members _ around)
        (deliver_member hvalue.autosort_eq_false hkey hkeys)
      exact reaches_memberKey hphase hgap₁ hbody hkey hgap₂
        (hreaches.between (skipsBlanks_object _ around nofun) hgap₃
          (skipsBlanks_object _ around nofun) hgap₄)

theorem Members.reaches {body : List Char} {members : List Tree} {around : List Hole} :
    Members body members → (members.map Tree.key).Nodup →
      (within (.object (objectOf []) .keyOrClose) around).Reaches body
        (·.Settles (within (.object (objectOf members) .commaOrClose) around))
  | .one hmember, hkeys => Member.reaches hmember (.inl rfl) hkeys
  | .more hmembers hmember, hkeys => by
      have hkeys' := hkeys
      rw [List.map_append, List.nodup_append] at hkeys'
      refine .append ((Members.reaches hmembers hkeys'.1).imp fun _ hsettles => ?_)
      exact hsettles.reaches_step rfl (fun place => next_of_stay rfl)
        (Member.reaches hmember (.inr rfl) hkeys)

/-- Where a value is expected, one is read with blanks around it. -/
theorem Element.reaches {text : List Char} {tree : Tree} {progress last : Progress}
    {around : List Hole} : Element text tree → progress.Expects around → progress.SkipsBlanks →
      (∀ place, deliver tree around place = .ok last) → last.SkipsBlanks →
      progress.Reaches text (·.Settles last)
  | .mk hgap₁ hvalue hgap₂, hexpects, hskips, hdeliver, hafter =>
      (Value.reaches hvalue hexpects hdeliver).between hskips hgap₁ hafter hgap₂

theorem Elements.reaches {body : List Char} {elements : List Tree} {around : List Hole} :
    Elements body elements →
      (within (.array (arrayOf []) .valueOrClose) around).Reaches body
        (·.Settles (within (.array (arrayOf elements) .commaOrClose) around))
  | .one helement =>
      Element.reaches helement (expects_element [] around nofun) (skipsBlanks_array _ _ around)
        (deliver_element helement.autosort_eq_false) (skipsBlanks_array _ _ around)
  | .more helements helement => by
      refine .append ((Elements.reaches helements).imp fun _ hsettles => ?_)
      refine hsettles.reaches_step rfl (fun place => next_of_stay rfl) ?_
      exact Element.reaches helement (expects_element _ around nofun) (skipsBlanks_array _ _ around)
        (deliver_element helement.autosort_eq_false) (skipsBlanks_array _ _ around)

end

/-! ### Rows from the front -/

theorem Members.cons {text body : List Char} {member : Tree} {members : List Tree}
    (hmember : Member text member) :
    Members body members → Members (text ++ ',' :: body) (member :: members)
  | .one hlast => .more (.one hmember) hlast
  | .more hmembers hlast => by
      have hmore := Members.more (Members.cons hmember hmembers) hlast
      simpa using hmore

theorem Elements.cons {text body : List Char} {element : Tree} {elements : List Tree}
    (helement : Element text element) :
    Elements body elements → Elements (text ++ ',' :: body) (element :: elements)
  | .one hlast => .more (.one helement) hlast
  | .more helements hlast => by
      have hmore := Elements.more (Elements.cons helement helements) hlast
      simpa using hmore

end Grammar

/-! ## Whole texts -/

/-- At the end of the text a value is complete that only waits for its literal to end. -/
theorem Progress.Settles.finish {progress : Progress} {tree : Tree}
    (hsettles : progress.Settles (.done tree)) (cursor : Cursor) :
    (Reader.plain cursor progress).finish = .ok tree := by
  generalize hlast : Progress.done tree = last at hsettles
  cases hsettles with
  | refl =>
      subst hlast
      rfl
  | @literal start token payload around _ hpayload hdeliver =>
      -- the literal must stand on its own, since no container is left open behind it
      have hvalue : Frame.literalValue start token = .ok (.leaf payload) := by
        unfold Frame.literalValue
        rw [hpayload]
      subst hlast
      cases around with
      | nil =>
          cases hdeliver .start
          exact hvalue
      | cons hole outer =>
          obtain ⟨frame, _, hframe⟩ := map_eq_ok_iff.mp (hdeliver .start)
          cases hframe

/-- A document is read to its end, and gives the tree that it denotes. -/
theorem decode_of_document {text : String} {tree : Tree} (hdocument : Document text.toList tree) :
    decode {} text = .ok tree := by
  have hreaches : Progress.fresh.Reaches text.toList (·.Settles (.done tree)) :=
    Element.reaches hdocument Progress.expects_fresh Progress.skipsBlanks_fresh (fun _ => rfl)
      (Progress.skipsBlanks_done tree)
  obtain ⟨cursor, last, hfeed, hsettles⟩ := hreaches .start
  have hnew : (Reader.new {}).feed text.toList = (.ok (), Reader.plain cursor last) := hfeed
  unfold decode
  rw [hnew]
  exact hsettles.finish cursor

/-- A text denotes at most one tree. -/
theorem Grammar.Document.unique {text : List Char} {tree other : Tree}
    (hdocument : Document text tree) (hother : Document text other) : tree = other := by
  rw [← String.toList_ofList (l := text)] at hdocument hother
  have hread := decode_of_document hdocument
  rw [decode_of_document hother] at hread
  exact (Except.ok.inj hread).symm

/-- The texts that are read are the documents of the grammar, and what is read is the tree that a
document denotes. Every other text is a fault. -/
theorem decode_accepts_documents (text : String) :
    (∀ tree, decode {} text = .ok tree ↔ Document text.toList tree) ∧
      ((∃ fault, decode {} text = .error fault) ↔ ∀ tree, ¬ Document text.toList tree) := by
  refine ⟨fun tree => ⟨document_of_decode, decode_of_document⟩, ?_⟩
  constructor
  · rintro ⟨fault, hfault⟩ tree hdocument
    rw [decode_of_document hdocument] at hfault
    cases hfault
  · intro hnone
    cases hdecode : decode {} text with
    | ok tree => exact absurd (document_of_decode hdecode) (hnone tree)
    | error fault => exact ⟨fault, rfl⟩

end KeyedTree
