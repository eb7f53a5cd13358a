import KeyedTree.Proofs.Reader.Stoppers
import KeyedTree.Proofs.WellFormed.Tree
import KeyedTree.Reader.Stack

/-! # Two readers

A reader and a reader with a stack read alike. The frames and holes of the one are the values on the
stack of the other, and what the one makes of a character the other makes of it in one or two rounds
of its loop. Where the reader with a stack has an error for a stack that is out of order, no stack
that stands for frames and holes comes to it.
-/

namespace KeyedTree

/-! ## Frames and holes on a stack -/

/-- An object with this phase is at this stage. -/
def ObjectPhase.stage : ObjectPhase → ObjectStage
  | .keyOrClose => .keyOrClose
  | .nextKey => .nextKey
  | .key body => .key body
  | .colon _ => .colon
  | .value _ => .value
  | .commaOrClose => .commaOrClose

/-- The key of the member that comes next, if it is known. -/
def ObjectPhase.pending : ObjectPhase → String
  | .colon name => name
  | .value name => name
  | _ => ""

/-- An array with this phase is at this stage. -/
def ArrayPhase.stage : ArrayPhase → ArrayStage
  | .valueOrClose => .valueOrClose
  | .value => .value
  | .commaOrClose => .commaOrClose

/-- A frame as the top of a stack. -/
def Frame.builder : Frame → Builder
  | .object node phase => .object node phase.stage phase.pending
  | .array node phase => .array node phase.stage
  | .string body => .string true body
  | .literal start token => .literal start token

/-- A hole as a container below the top of a stack. -/
def Hole.builder : Hole → Builder
  | .member node key => .object node .commaOrClose key
  | .element node => .array node .commaOrClose

/-- A container waits for the value above it on the stack: behind that value it expects a comma or
its end. An object knows the key of the value. -/
def Builder.Waits : Builder → Prop
  | .object _ .commaOrClose pending => pending ≠ ""
  | .array _ .commaOrClose => True
  | _ => False

/-! ## Frames that can be met -/

/-- A key that is waited for is not empty. -/
def ObjectPhase.Keyed : ObjectPhase → Prop
  | .colon name => name ≠ ""
  | .value name => name ≠ ""
  | _ => True

/-- The node of a frame is of its kind, and a literal has begun. -/
def Frame.Sound : Frame → Prop
  | .object node phase => node.kind = .object ∧ phase.Keyed
  | .array node _ => node.kind = .array
  | .string _ => True
  | .literal _ token => token ≠ ""

/-- The node of a hole is of its kind, and a member has a key. -/
def Hole.Sound : Hole → Prop
  | .member node key => node.kind = .object ∧ key ≠ ""
  | .element node => node.kind = .array

/-- A defect is not about a container that refuses its member. -/
def Defect.Proper : Defect → Prop
  | .refusedMember _ => False
  | _ => True

/-- A fault is not about a container that refuses its member. -/
def Fault.Proper : Fault → Prop
  | .malformed _ defect => defect.Proper
  | _ => True

theorem Hole.Sound.waits {hole : Hole} (hhole : hole.Sound) : hole.builder.Waits := by
  cases hole with
  | member node key => exact hhole.2
  | element node => trivial

@[simp] theorem Frame.inToken_builder (frame : Frame) : frame.builder.inToken = frame.inToken := by
  cases frame with
  | object node phase => cases phase <;> rfl
  | _ => rfl

/-! ## What one character does to the top -/

/-- What a frame makes of a character, and what the value on the stack makes of it. A value that
starts inside takes its first character in. -/
inductive Echoes (c : Char) (place : Cursor) : Except Fault Turn → Except Trouble Reaction → Prop
  | fault {fault : Fault} : fault.Proper → Echoes c place (.error fault) (.error (.fault fault))
  | stay (next : Frame) : next.Sound → Echoes c place (.ok (.stay next)) (.ok (.stay next.builder))
  | descend (hole : Hole) {next : Frame} {autosort : Bool} {child : Builder} :
      hole.Sound → next.Sound →
      Builder.fresh? c autosort = some child → child.feed c place = .ok (.stay next.builder) →
      Echoes c place (.ok (.descend hole next)) (.ok (.descend hole.builder child))
  | close {value : Tree} : Echoes c place (.ok (.close value)) (.ok (.close value))
  | closeBefore {value : Tree} :
      Echoes c place (.ok (.closeBefore value)) (.ok (.closeBefore value))

variable {c : Char} {place : Cursor}

/-- A value that starts with a character takes it in, and is then what a frame starts as. -/
theorem Frame.start?_eq_fresh? (c : Char) (place : Cursor) (autosort : Bool) :
    (start? c place autosort = none ∧ Builder.fresh? c autosort = none) ∨
      ∃ frame child, start? c place autosort = some frame ∧ Builder.fresh? c autosort = some child ∧
        child.feed c place = .ok (.stay frame.builder) ∧ frame.Sound := by
  unfold start? Builder.fresh?
  by_cases hbrace : c = '{'
  · subst hbrace
    exact .inr ⟨.object _ .keyOrClose, _, rfl, rfl, rfl, rfl, trivial⟩
  by_cases hbracket : c = '['
  · subst hbracket
    exact .inr ⟨.array _ .valueOrClose, _, rfl, rfl, rfl, rfl⟩
  by_cases hquote : c = '"'
  · subst hquote
    exact .inr ⟨.string {}, _, rfl, rfl, rfl, trivial⟩
  rw [if_neg hbrace, if_neg hbrace, if_neg hbracket, if_neg hbracket, if_neg hquote, if_neg hquote]
  by_cases hstarts : Literal.starts c = true
  · have hcontinues : Literal.continues c = true := by
      grind [Literal.starts, Literal.continues]
    refine .inr ⟨_, _, if_pos hstarts, if_pos hstarts, ?_, String.singleton_ne_empty⟩
    simp [Builder.feed, hcontinues, Frame.builder]
  · exact .inl ⟨if_neg hstarts, if_neg hstarts⟩

namespace Echoes

theorem defect {defect : Defect} (hdefect : defect.Proper) :
    Echoes c place (.error (.malformed place defect)) (.error (.fault (.malformed place defect))) :=
  .fault hdefect

/-- Both ask the same question about the character. -/
theorem ite {condition : Prop} [Decidable condition] {turn turn' : Except Fault Turn}
    {reaction reaction' : Except Trouble Reaction}
    (hthen : condition → Echoes c place turn reaction)
    (helse : ¬ condition → Echoes c place turn' reaction') :
    Echoes c place (if condition then turn else turn')
      (if condition then reaction else reaction') := by
  split
  next hholds => exact hthen hholds
  next hfails => exact helse hfails

end Echoes

theorem Quoted.proper_of_pushCodeUnit {body : Quoted} {code : Nat} {defect : Defect}
    (hpush : body.pushCodeUnit code = .error defect) : defect.Proper := by
  grind [pushCodeUnit, Defect.Proper]

theorem Quoted.proper_of_feed {body : Quoted} {defect : Defect}
    (hfeed : body.feed c = .error defect) :
    defect.Proper := by
  have hunit (code : Nat) (hmap : (body.pushCodeUnit code).map Step.more = .error defect) :
      defect.Proper := by
    cases hpush : body.pushCodeUnit code with
    | ok next =>
        rw [hpush] at hmap
        cases hmap
    | error cause =>
        rw [hpush] at hmap
        cases hmap
        exact proper_of_pushCodeUnit hpush
  grind [feed, Defect.Proper]

theorem Literal.proper_of_payload {token : String} {defect : Defect}
    (hpayload : Literal.payload token = .error defect) : defect.Proper := by
  grind [Literal.payload, Defect.Proper]

theorem Frame.Sound.echoes_object {node : Tree} {phase : ObjectPhase}
    (hframe : (Frame.object node phase).Sound) (c : Char) (place : Cursor) :
    Echoes c place (Frame.feedObject node phase c place)
      (Builder.feedObject node phase.stage phase.pending c place) := by
  obtain ⟨hobject, hkeyed⟩ := hframe
  have hstay (phase : ObjectPhase) (hkeyed : phase.Keyed) :
      Echoes c place (.ok (.stay (.object node phase)))
        (.ok (.stay (.object node phase.stage phase.pending))) :=
    .stay (.object node phase) ⟨hobject, hkeyed⟩
  cases phase with
  | keyOrClose =>
      refine .ite (fun _ => hstay .keyOrClose trivial) fun _ => .ite (fun _ => .close) fun _ => ?_
      exact .ite (fun _ => hstay (.key {}) trivial) fun _ => .defect trivial
  | nextKey =>
      refine .ite (fun _ => hstay .nextKey trivial) fun _ => ?_
      exact .ite (fun _ => hstay (.key {}) trivial) fun _ => .defect trivial
  | key body =>
      simp only [Frame.feedObject, Builder.feedObject, ObjectPhase.stage]
      cases hfeed : body.feed c with
      | error defect => exact .defect (Quoted.proper_of_feed hfeed)
      | ok step =>
          cases step with
          | more body => exact hstay (.key body) trivial
          | closed name =>
              exact .ite (fun _ => .defect trivial) fun hname => hstay (.colon name) hname
  | colon name =>
      refine .ite (fun _ => hstay (.value name) hkeyed) fun _ => ?_
      exact .ite (fun _ => hstay (.colon name) hkeyed) fun _ => .defect trivial
  | value name =>
      refine .ite (fun _ => hstay (.value name) hkeyed) fun _ => ?_
      obtain ⟨hstart, hfresh⟩ | ⟨next, child, hstart, hfresh, hchild, hnext⟩ :=
        Frame.start?_eq_fresh? c place node.head.autosort
      · rw [hstart, hfresh]
        exact .defect trivial
      · rw [hstart, hfresh]
        exact .descend (.member node name) ⟨hobject, hkeyed⟩ hnext hfresh hchild
  | commaOrClose =>
      refine .ite (fun _ => hstay .nextKey trivial) fun _ => .ite (fun _ => .close) fun _ => ?_
      exact .ite (fun _ => hstay .commaOrClose trivial) fun _ => .defect trivial

theorem Echoes.element {node : Tree} (hnode : node.kind = .array) (c : Char) (place : Cursor) :
    Echoes c place
      (match Frame.start? c place node.head.autosort with
        | some frame => .ok (.descend (.element node) frame)
        | none => .error (.malformed place (.expectedElement c)))
      (match Builder.fresh? c node.head.autosort with
        | some child => .ok (.descend (.array node .commaOrClose) child)
        | none => .error (.fault (.malformed place (.expectedElement c)))) := by
  obtain ⟨hstart, hfresh⟩ | ⟨next, child, hstart, hfresh, hchild, hnext⟩ :=
    Frame.start?_eq_fresh? c place node.head.autosort
  · rw [hstart, hfresh]
    exact .defect trivial
  · rw [hstart, hfresh]
    exact .descend (.element node) hnode hnext hfresh hchild

theorem Frame.Sound.echoes_array {node : Tree} {phase : ArrayPhase}
    (hframe : (Frame.array node phase).Sound) (c : Char) (place : Cursor) :
    Echoes c place (Frame.feedArray node phase c place)
      (Builder.feedArray node phase.stage c place) := by
  have hstay (phase : ArrayPhase) : Echoes c place (.ok (.stay (.array node phase)))
      (.ok (.stay (.array node phase.stage))) := .stay (.array node phase) hframe
  have helement := Echoes.element hframe c place
  cases phase with
  | valueOrClose =>
      exact .ite (fun _ => hstay .valueOrClose) fun _ => .ite (fun _ => .close) fun _ => helement
  | value => exact .ite (fun _ => hstay .value) fun _ => helement
  | commaOrClose =>
      refine .ite (fun _ => hstay .value) fun _ => .ite (fun _ => .close) fun _ => ?_
      exact .ite (fun _ => hstay .commaOrClose) fun _ => .defect trivial

theorem Frame.Sound.echoes {frame : Frame} (hframe : frame.Sound) (c : Char) (place : Cursor) :
    Echoes c place (frame.feed c place) (frame.builder.feed c place) := by
  cases frame with
  | object node phase => exact hframe.echoes_object c place
  | array node phase => exact hframe.echoes_array c place
  | string body =>
      simp only [Frame.feed, Frame.builder, Builder.feed]
      cases hfeed : body.feed c with
      | error defect => exact .defect (Quoted.proper_of_feed hfeed)
      | ok step =>
          cases step with
          | more body => exact .stay (.string body) trivial
          | closed text => exact .close
  | literal start token =>
      have htoken : token ≠ "" := hframe
      simp only [Frame.feed, Frame.builder, Builder.feed, if_neg htoken]
      refine .ite (fun _ => .stay (.literal start (token.push c)) String.push_ne_empty) fun _ => ?_
      simp only [Builder.literalValue, if_neg htoken, Frame.literalValue]
      cases hpayload : Literal.payload token with
      | ok payload => exact .closeBefore
      | error defect => exact .fault (Literal.proper_of_payload hpayload)

/-! ## A value behind the top -/

/-- An object takes a member in under a key that is not entered. -/
theorem Tree.attachKeyed_of_object {node : Tree} (hobject : node.kind = .object) {key : String}
    (hnew : node.index.contains key = false) (value : Tree) :
    ∃ pos after, node.attachKeyed key value = (.ok pos, after) ∧ after.kind = .object := by
  have hmissing : node.outline.head.index.get? key = none := by
    rwa [KeyIndex.contains, Option.isSome_eq_false_iff, Option.isNone_iff_eq_none] at hnew
  have hdecide := Outline.attach_of_blank_or_object .attachKeyed (some key) value value.head
    (.inr hobject : node.outline.head.kind = .uninitialized ∨ node.outline.head.kind = .object)
  simp only [Option.getD_some, hmissing] at hdecide
  exact ⟨_, _, Tree.perform_changed hdecide, rfl⟩

/-- An array takes an element in. -/
theorem Tree.append_of_array {node : Tree} (harray : node.kind = .array) (value : Tree) :
    ∃ pos after, node.append value = (.ok pos, after) ∧ after.kind = .array := by
  have hdecide : ∃ row pos, Outline.append value value.head node.outline =
      .changed ⟨{ node.head with kind := .array }, row⟩ pos := by
    unfold Outline.append
    rw [show node.outline.head.kind = .array from harray]
    exact ⟨_, _, rfl⟩
  obtain ⟨row, pos, hdecide⟩ := hdecide
  exact ⟨_, _, Tree.perform_changed hdecide, rfl⟩

/-- A container that a value was put into expects a comma or its end. -/
inductive Frame.Resumed : Frame → Prop
  | object (node : Tree) : Resumed (.object node .commaOrClose)
  | array (node : Tree) : Resumed (.array node .commaOrClose)

/-- What filling a hole comes to, and what handing the value to the container on the stack comes
to. -/
inductive Fills : Except Fault Frame → Except Trouble Builder → Prop
  | fault {fault : Fault} : fault.Proper → Fills (.error fault) (.error (.fault fault))
  | resume (frame : Frame) : frame.Sound → frame.Resumed → Fills (.ok frame) (.ok frame.builder)

theorem Hole.Sound.fills {hole : Hole} (hhole : hole.Sound) (value : Tree) (place : Cursor) :
    Fills (hole.fill value place) (hole.builder.accept value place) := by
  cases hole with
  | member node key =>
      obtain ⟨hobject, _⟩ := hhole
      simp only [Hole.fill, Hole.builder, Builder.accept]
      cases hcontains : node.index.contains key with
      | true => exact .fault trivial
      | false =>
          obtain ⟨pos, after, hattach, hafter⟩ := Tree.attachKeyed_of_object hobject hcontains value
          rw [hattach]
          exact .resume (.object after .commaOrClose) ⟨hafter, trivial⟩ (.object after)
  | element node =>
      obtain ⟨pos, after, happend, hafter⟩ := Tree.append_of_array hhole value
      simp only [Hole.fill, Hole.builder, Builder.accept, happend]
      exact .resume (.array after .commaOrClose) hafter (.array after)

/-! ## The rounds of the loop -/

/-- The values that are being read as a stack of a reader. -/
def Progress.stacked (options : ReadOptions) (cursor : Cursor) (stopped : Bool) :
    Progress → StackReader
  | .fresh => { options, cursor, stopped }
  | .within top around =>
      { options, cursor, stopped, stack := top.builder :: around.map Hole.builder }
  | .done value => { options, cursor, stopped, result := some value }
  | .failed fault => { options, cursor, stopped, failure := some (.fault fault) }

/-- The frames and holes can be met, and a fault is proper. -/
def Progress.Sound : Progress → Prop
  | .within top around => top.Sound ∧ ∀ hole ∈ around, hole.Sound
  | .failed fault => fault.Proper
  | _ => True

/-- What a document comes to with a character, and what the loop of a reader with a stack comes
to. -/
inductive Settles (options : ReadOptions) (place : Cursor) :
    Except Fault (Progress × Bool) → Except Trouble StackReader → Prop
  | fault {fault : Fault} :
      fault.Proper → Settles options place (.error fault) (.error (.fault fault))
  | ok (progress : Progress) {stopped : Bool} : progress.Sound →
      Settles options place (.ok (progress, stopped)) (.ok (progress.stacked options place stopped))

/-- A value deals with a character: it takes it in, is complete with it or refuses it. -/
def Reacted.Deals (reacted : Reacted) : Prop :=
  reacted = .stayed ∨ reacted = .closed ∨ reacted = .failed

/-- The loop is brief about a character: it feeds at most two values. A value that starts inside of
another one takes the character in. If a literal ends in front of the character, the container below
takes in the literal and deals with the character. It does not see the character if that is a
stopper, or if it refuses the literal. -/
inductive Brief (options : ReadOptions) (c : Char) : List Feed → Prop
  | none : Brief options c []
  | one {feed : Feed} : feed.reacted.Deals → Brief options c [feed]
  | descent {outer inner : Feed} {container : Builder} {autosort : Bool} :
      outer.reacted = .descended →
      inner.below = container :: outer.below → Builder.fresh? c autosort = some inner.builder →
      inner.reacted = .stayed → Brief options c [outer, inner]
  | outermost {literal : Feed} : literal.reacted = .closedBefore → literal.builder.form = .literal →
      literal.below = [] → Brief options c [literal]
  | stop {literal : Feed} : literal.reacted = .closedBefore → literal.builder.form = .literal →
      options.stoppers.contains c = true → Brief options c [literal]
  | refusal {literal : Feed} {waiting : Builder} {below : List Builder} {value : Tree}
      {place : Cursor}
      {trouble : Trouble} : literal.reacted = .closedBefore → literal.builder.form = .literal →
      literal.below = waiting :: below → waiting.accept value place = .error trouble →
        Brief options c [literal]
  | replay {literal container : Feed} {waiting : Builder} {value : Tree} {place : Cursor} :
      literal.reacted = .closedBefore → literal.builder.form = .literal →
      literal.below = waiting :: container.below →
        waiting.accept value place = .ok container.builder →
      container.reacted.Deals → Brief options c [literal, container]

/-- Below a value that was fed, the containers were waiting. -/
def Feed.Waits (feed : Feed) : Prop :=
  ∀ builder ∈ feed.below, builder.Waits

/-- The loop returns, with what the document comes to. It was brief about the character, and all
containers below the values that it fed were waiting. -/
def Dispatches (options : ReadOptions) (place : Cursor) (c : Char)
    (next : Except Fault (Progress × Bool))
    (rounds : Part (List Feed × Except Trouble StackReader)) : Prop :=
  ∃ feeds result, rounds = .some (feeds, result) ∧ Settles options place next result ∧
    Brief options c feeds ∧ ∀ feed ∈ feeds, feed.Waits

variable {options : ReadOptions} {top : Frame} {around : List Hole}

theorem Fills.settles {filled : Except Fault Frame} {accepted : Except Trouble Builder}
    (hfills : Fills filled accepted) (haround : ∀ hole ∈ around, hole.Sound) (options : ReadOptions)
    (place : Cursor) :
    Settles options place
      ((filled.map fun frame => .within frame around).map fun progress => (progress, false))
      (accepted.map fun parent =>
        { options, cursor := place, stack := parent :: around.map Hole.builder }) := by
  cases hfills with
  | fault hproper => exact .fault hproper
  | resume frame hframe _ => exact .ok (.within frame around) ⟨hframe, haround⟩

theorem settles_deliver (haround : ∀ hole ∈ around, hole.Sound) (value : Tree) :
    Settles options place
      ((Progress.deliver value around place).map fun progress => (progress, false))
      (StackReader.deliver { options, cursor := place, stack := around.map Hole.builder }
        value) := by
  cases around with
  | nil => exact .ok (.done value) trivial
  | cons hole outer =>
      obtain ⟨hhole, houter⟩ := List.forall_mem_cons.mp haround
      exact (hhole.fills value place).settles houter options place

/-- A frame deals with a character by itself: no value starts with it, and it does not end a
literal. -/
structure Frame.Direct (frame : Frame) (c : Char) (place : Cursor) : Prop where
  starts : ∀ hole next, frame.feed c place ≠ .ok (.descend hole next)
  ends : ∀ value, frame.feed c place ≠ .ok (.closeBefore value)

theorem Frame.Resumed.direct {frame : Frame} (hframe : frame.Resumed) (c : Char) (place : Cursor) :
    frame.Direct c place := by
  cases hframe with
  | object node => constructor <;> grind [Frame.feed, Frame.feedObject]
  | array node => constructor <;> grind [Frame.feed, Frame.feedArray]

/-- If the top deals with the character by itself, the first round returns. -/
theorem round_of_direct (htop : top.Sound) (haround : ∀ hole ∈ around, hole.Sound)
    (hdirect : top.Direct c place) :
    ∃ reacted result,
      ((Progress.within top around).stacked options place false).round c =
          .returns [⟨top.builder, around.map Hole.builder, reacted⟩] result ∧
        Settles options place (Progress.feed options c place top around) result ∧
          reacted.Deals := by
  have hechoes := htop.echoes c place
  obtain ⟨hstarts, hends⟩ := hdirect
  rw [StackReader.round]
  unfold Progress.feed
  simp only [Progress.stacked]
  generalize top.feed c place = turn at *
  generalize top.builder.feed c place = reaction at *
  cases hechoes with
  | fault hproper => exact ⟨.failed, _, rfl, .fault hproper, .inr (.inr rfl)⟩
  | stay next hnext => exact ⟨.stayed, _, rfl, .ok (.within next around) ⟨hnext, haround⟩, .inl rfl⟩
  | descend hole => exact absurd rfl (hstarts _ _)
  | close => exact ⟨.closed, _, rfl, settles_deliver haround _, .inr (.inl rfl)⟩
  | closeBefore => exact absurd rfl (hends _)

theorem waits_of_mem (haround : ∀ hole ∈ around, hole.Sound) :
    ∀ builder ∈ around.map Hole.builder, builder.Waits := by
  intro builder hbuilder
  obtain ⟨hole, hhole, rfl⟩ := List.mem_map.mp hbuilder
  exact (haround hole hhole).waits

theorem dispatches_of_direct (htop : top.Sound) (haround : ∀ hole ∈ around, hole.Sound)
    (hdirect : top.Direct c place) :
    Dispatches options place c (Progress.feed options c place top around)
      (((Progress.within top around).stacked options place false).loop c) := by
  obtain ⟨reacted, result, hround, hsettles, hreacted⟩ := round_of_direct htop haround hdirect
  exact ⟨_, result, StackReader.loop_of_returns hround, hsettles, .one hreacted,
    List.forall_mem_singleton.mpr (waits_of_mem haround)⟩

/-- A literal that is the top-level value ends in front of a character. The document is complete
then. -/
theorem dispatches_of_outermost {start : Cursor} {token : String} {value : Tree}
    (hturn : (Frame.literal start token).feed c place = .ok (.closeBefore value))
    (hreaction : (Builder.literal start token).feed c place = .ok (.closeBefore value)) :
    Dispatches options place c (Progress.feed options c place (.literal start token) [])
      (((Progress.within (.literal start token) []).stacked options place false).loop c) := by
  have hround := @StackReader.round_of_closeBefore
    ((Progress.within (.literal start token) []).stacked options place false) c _ _ value rfl
      hreaction
  have hbrief : Brief options c [⟨.literal start token, [], .closedBefore⟩] :=
    .outermost rfl rfl rfl
  have hwaits : ∀ feed ∈ [(⟨.literal start token, [], .closedBefore⟩ : Feed)], feed.Waits :=
    List.forall_mem_singleton.mpr (List.forall_mem_nil _)
  unfold Progress.feed
  simp only [Progress.stacked, StackReader.deliver, StackReader.atBoundary?, List.map_nil,
    List.isEmpty_nil, Bool.true_and] at hround
  simp only [hturn]
  cases hstops : options.stoppers.contains c with
  | true =>
      simp only [hstops, if_true] at hround
      exact ⟨_, _, StackReader.loop_of_returns hround, .ok (.done value) trivial, hbrief, hwaits⟩
  | false =>
      cases hblank : isBlank c with
      | true =>
          simp only [hstops, hblank, Bool.false_eq_true, if_false, if_true] at hround
          exact ⟨_, _, StackReader.loop_of_returns hround, .ok (.done value) trivial,
            hbrief, hwaits⟩
      | false =>
          simp only [hstops, hblank, Bool.false_eq_true, if_false, if_true] at hround
          exact ⟨_, _, StackReader.loop_of_returns hround, .fault trivial, hbrief, hwaits⟩

/-- A literal inside of a container ends in front of a character. The container takes it in, and
goes on with the character. -/
theorem dispatches_of_replay {start : Cursor} {token : String} {hole : Hole} {outer : List Hole}
    {value : Tree} (haround : ∀ other ∈ hole :: outer, other.Sound)
    (hturn : (Frame.literal start token).feed c place = .ok (.closeBefore value))
    (hreaction : (Builder.literal start token).feed c place = .ok (.closeBefore value)) :
    Dispatches options place c
      (Progress.feed options c place (.literal start token) (hole :: outer))
      (((Progress.within (.literal start token) (hole :: outer)).stacked options place false).loop
        c) := by
  have hround := @StackReader.round_of_closeBefore
    ((Progress.within (.literal start token) (hole :: outer)).stacked options place false) c _ _
      value rfl hreaction
  have hwaits := waits_of_mem haround
  obtain ⟨hhole, houter⟩ := List.forall_mem_cons.mp haround
  have hfills := hhole.fills value place
  unfold Progress.feed
  simp only [Progress.stacked, StackReader.deliver, StackReader.atBoundary?,
    List.map_cons] at hround
  simp only [hturn]
  generalize hole.fill value place = filled at *
  generalize haccept : hole.builder.accept value place = accepted at *
  cases hfills with
  | fault hproper =>
      exact ⟨_, _, StackReader.loop_of_returns hround, .fault hproper, .refusal rfl rfl rfl haccept,
        List.forall_mem_singleton.mpr hwaits⟩
  | resume frame hframe hresumed =>
      simp only [Except.map] at hround
      cases hstops : options.stoppers.contains c with
      | true =>
          simp only [hstops, if_true] at hround
          exact ⟨_, _, StackReader.loop_of_returns hround,
            .ok (.within frame outer) ⟨hframe, houter⟩, .stop rfl rfl hstops,
            List.forall_mem_singleton.mpr hwaits⟩
      | false =>
          simp only [hstops, List.isEmpty_cons, Bool.false_and, Bool.false_eq_true,
            if_false] at hround
          obtain ⟨reacted, result, hnext, hsettles, hreacted⟩ :=
            @round_of_direct c place options frame outer hframe houter (hresumed.direct c place)
          exact ⟨_, result, StackReader.loop_of_goesOn hround hnext, hsettles,
            .replay rfl rfl rfl haccept hreacted,
            List.forall_mem_cons.mpr ⟨hwaits, List.forall_mem_singleton.mpr (waits_of_mem houter)⟩⟩

/-- A value starts inside of the top. It takes its first character in. -/
theorem dispatches_of_descend (haround : ∀ hole ∈ around, hole.Sound) {hole : Hole} {next : Frame}
    {child : Builder} {autosort : Bool} (hhole : hole.Sound) (hnext : next.Sound)
    (hfresh : Builder.fresh? c autosort = some child)
    (hchild : child.feed c place = .ok (.stay next.builder))
    (hturn : top.feed c place = .ok (.descend hole next))
    (hreaction : top.builder.feed c place = .ok (.descend hole.builder child)) :
    Dispatches options place c (Progress.feed options c place top around)
      (((Progress.within top around).stacked options place false).loop c) := by
  have hinside : ∀ other ∈ hole :: around, other.Sound := List.forall_mem_cons.mpr ⟨hhole, haround⟩
  let inner : StackReader :=
    { options, cursor := place, stack := child :: hole.builder :: around.map Hole.builder }
  have hround :
      ((Progress.within top around).stacked options place false).round c = .goesOn _ inner :=
    StackReader.round_of_descend rfl hreaction
  have hlast : inner.round c = .returns _ _ := StackReader.round_of_stay rfl hchild
  unfold Progress.feed
  simp only [hturn]
  exact ⟨_, _, StackReader.loop_of_goesOn hround hlast,
    .ok (.within next (hole :: around)) ⟨hnext, hinside⟩, .descent rfl rfl hfresh rfl,
    List.forall_mem_cons.mpr
      ⟨waits_of_mem haround, List.forall_mem_singleton.mpr (waits_of_mem hinside)⟩⟩

theorem dispatches_within (htop : top.Sound) (haround : ∀ hole ∈ around, hole.Sound) :
    Dispatches options place c (Progress.feed options c place top around)
      (((Progress.within top around).stacked options place false).loop c) := by
  have hechoes := htop.echoes c place
  generalize hturn : top.feed c place = turn at hechoes
  generalize hreaction : top.builder.feed c place = reaction at hechoes
  have hdirect (hstarts : ∀ hole next, turn ≠ .ok (.descend hole next))
      (hends : ∀ value, turn ≠ .ok (.closeBefore value)) :=
    @dispatches_of_direct c place options top around htop haround ⟨hturn ▸ hstarts, hturn ▸ hends⟩
  cases hechoes with
  | fault => exact hdirect nofun nofun
  | stay => exact hdirect nofun nofun
  | close => exact hdirect nofun nofun
  | descend hole hhole hnext hfresh hchild =>
      exact dispatches_of_descend haround hhole hnext hfresh hchild hturn hreaction
  | closeBefore =>
      obtain ⟨start, token, rfl, _⟩ := Frame.literal_of_closeBefore hturn
      cases around with
      | nil => exact dispatches_of_outermost hturn hreaction
      | cons hole outer => exact dispatches_of_replay haround hturn hreaction

/-! ## One character -/

theorem dispatches_none {next : Except Fault (Progress × Bool)}
    {result : Except Trouble StackReader} (hsettles : Settles options place next result) :
    Dispatches options place c next (.some ([], result)) :=
  ⟨[], result, rfl, hsettles, .none, List.forall_mem_nil _⟩

theorem dispatches_start (options : ReadOptions) (place : Cursor) (c : Char) :
    Dispatches options place c
      (match Frame.start? c place options.autosort with
        | some frame => .ok (.within frame [], false)
        | none => .error (.malformed place (.atStart c)))
      ((Progress.fresh.stacked options place false).loop c) := by
  rw [StackReader.loop_of_returns rfl]
  simp only [Progress.stacked, StackReader.startValue, Option.isSome_none, Bool.false_eq_true,
    if_false]
  obtain ⟨hstart, hfresh⟩ | ⟨next, child, hstart, hfresh, hchild, hnext⟩ :=
    Frame.start?_eq_fresh? c place options.autosort
  · rw [hstart, hfresh]
    exact dispatches_none (.fault trivial)
  · simp only [hstart, hfresh, hchild]
    exact ⟨_, _, rfl, .ok (.within next []) ⟨hnext, List.forall_mem_nil _⟩, .one (.inl rfl),
      List.forall_mem_singleton.mpr (List.forall_mem_nil _)⟩

namespace Reader

variable {reader : Reader}

theorem dispatches_step (hlive : ∀ fault, reader.progress ≠ .failed fault)
    (hsound : reader.progress.Sound) (c : Char) (place : Cursor) :
    Dispatches reader.options place c (reader.step c place)
      ((reader.progress.stacked reader.options place false).step c) := by
  unfold step StackReader.step
  cases hprogress : reader.progress with
  | failed fault => exact absurd hprogress (hlive fault)
  | fresh =>
      have hstart := dispatches_start reader.options place c
      simp only [Progress.stacked, StackReader.atBoundary?, List.isEmpty_nil, Bool.true_and,
        if_true] at hstart ⊢
      cases reader.options.stoppers.contains c with
      | true => exact dispatches_none (.ok .fresh trivial)
      | false =>
          cases isBlank c with
          | true => exact dispatches_none (.ok .fresh trivial)
          | false => exact hstart
  | done value =>
      simp only [Progress.stacked, StackReader.atBoundary?, List.isEmpty_nil, Bool.true_and,
        if_true]
      cases reader.options.stoppers.contains c with
      | true => exact dispatches_none (.ok (.done value) trivial)
      | false =>
          cases isBlank c with
          | true => exact dispatches_none (.ok (.done value) trivial)
          | false =>
              simp only [Bool.false_eq_true, if_false]
              rw [StackReader.loop_of_returns rfl]
              exact dispatches_none (.fault trivial)
  | within top around =>
      rw [hprogress] at hsound
      obtain ⟨htop, haround⟩ := hsound
      have hwithin := @dispatches_within c place reader.options top around htop haround
      simp only [Progress.stacked, StackReader.atBoundary?, Frame.inToken_builder,
        List.isEmpty_cons, Bool.false_and, Bool.false_eq_true, if_false] at hwithin ⊢
      cases top.inToken with
      | true => exact hwithin
      | false =>
          cases reader.options.stoppers.contains c with
          | true => exact dispatches_none (.ok (.within top around) ⟨htop, haround⟩)
          | false => exact hwithin

end Reader

end KeyedTree
