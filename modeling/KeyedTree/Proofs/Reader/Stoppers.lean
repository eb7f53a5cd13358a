import KeyedTree.Proofs.Grammar.Soundness
import KeyedTree.Proofs.Reader.Outcome

/-! # Stoppers

A stopper ends a document where it stands between tokens. What is between tokens is told by the
characters alone: quoted texts run from quote to quote, past escaped characters, and literals run on
while their characters do. A text reads with stoppers as its part before the first of them reads
without.
-/

namespace KeyedTree

/-- Where a text stands, as far as its tokens go. -/
inductive Lexical
  /-- outside of all tokens -/
  | between
  /-- inside a quoted text, behind the backslash of an escape or not -/
  | quoted (escaped : Bool)
  /-- behind a character of a literal -/
  | literal

namespace Lexical

/-- Whether a literal runs on with a character. -/
def runsOn (c : Char) : Bool :=
  c.isAlphanum || c == '+' || c == '-' || c == '.'

/-- Whether a character lies between tokens. The first character of a token does. -/
def isBetween (c : Char) : Lexical → Bool
  | .between => true
  | .quoted _ => false
  | .literal => !runsOn c

/-- Where a text stands behind a character between tokens. -/
def opened (c : Char) : Lexical :=
  if c = '"' then .quoted false
  else if c.isAlphanum || c == '-' then .literal
  else .between

/-- Where a text stands behind one more character. -/
def next (c : Char) : Lexical → Lexical
  | .between => opened c
  | .quoted true => .quoted false
  | .quoted false => if c = '\\' then .quoted true else if c = '"' then .between else .quoted false
  | .literal => if runsOn c then .literal else opened c

end Lexical

/-- A text up to its first stopper between tokens. -/
def untilStopper (stoppers : List Char) (standing : Lexical) : List Char → List Char
  | [] => []
  | c :: rest =>
      if stoppers.contains c && standing.isBetween c then []
      else c :: untilStopper stoppers (standing.next c) rest

/-! ## Where the reader stands -/

namespace Lexical

theorem runsOn_eq (c : Char) : runsOn c = Literal.continues c := by
  unfold runsOn Literal.continues
  rw [Bool.or_right_comm (c.isAlphanum)]

theorem opened_of_isBlank {c : Char} (hblank : isBlank c = true) : opened c = .between := by
  rcases isBlank_iff.mp hblank with rfl | rfl | rfl | rfl <;> rfl

theorem opened_of_separator {c : Char} (hsep : c = ',' ∨ c = ':' ∨ c = ']' ∨ c = '}') :
    opened c = .between := by
  rcases hsep with rfl | rfl | rfl | rfl <;> rfl

theorem opened_quote : opened '"' = .quoted false := rfl

end Lexical

/-- Where a reader stands inside a quoted text. -/
def Quoted.lexical (body : Quoted) : Lexical :=
  .quoted (body.escape = .started)

/-- Where a reader stands inside a value. -/
def Frame.lexical : Frame → Lexical
  | .object _ (.key body) => body.lexical
  | .object .. => .between
  | .array .. => .between
  | .string body => body.lexical
  | .literal .. => .literal

/-- Where a reader stands. -/
def Progress.lexical : Progress → Lexical
  | .within top _ => top.lexical
  | _ => .between

/-- What a frame makes of a character fits where the text stands behind the character. A literal
that ended in front of the character leaves it to the text around. -/
def Turn.Follows (standing : Lexical) (c : Char) : Turn → Prop
  | .stay frame => frame.lexical = standing.next c
  | .descend _ frame => frame.lexical = standing.next c
  | .close _ => standing.next c = .between
  | .closeBefore _ => standing.next c = Lexical.opened c

theorem Quoted.not_hexDigit {c : Char} {digit : Nat} (hdigit : hexDigit? c = some digit) :
    c ≠ '\\' ∧ c ≠ '"' := by
  constructor <;> rintro rfl <;> cases hdigit

theorem Quoted.lexical_of_pushCodeUnit {body after : Quoted} {code : Nat}
    (hpush : body.pushCodeUnit code = .ok after) : after.lexical = .quoted false := by
  unfold pushCodeUnit at hpush
  grind [Quoted.lexical]

/-- A quoted text goes on with a character that does not close it. -/
theorem Quoted.lexical_more {body after : Quoted} {c : Char}
    (hfeed : body.feed c = .ok (.more after)) : after.lexical = body.lexical.next c := by
  unfold feed at hfeed
  split at hfeed
  next => cases hfeed
  next =>
    cases hescape : body.escape with
    | none => grind [Quoted.lexical, Lexical.next]
    | started => grind [Quoted.lexical, Lexical.next]
    | unicode digits code =>
        have hstands : body.lexical = .quoted false := by simp [Quoted.lexical, hescape]
        simp only [hescape] at hfeed
        split at hfeed
        next => cases hfeed
        next digit hdigit =>
          obtain ⟨hbackslash, hquote⟩ := not_hexDigit hdigit
          rw [hstands, Lexical.next, if_neg hbackslash, if_neg hquote]
          split at hfeed
          next =>
            cases hfeed
            rfl
          next =>
            obtain ⟨pushed, hpush, hmore⟩ := map_eq_ok_iff.mp hfeed
            cases hmore
            exact lexical_of_pushCodeUnit hpush

/-- A quoted text is closed by a quote that is not escaped. -/
theorem Quoted.lexical_closed {body : Quoted} {c : Char} {text : String}
    (hfeed : body.feed c = .ok (.closed text)) : body.lexical.next c = .between := by
  unfold feed at hfeed
  grind [Quoted.lexical, Lexical.next, pushCodeUnit, Except.map]

theorem Frame.lexical_of_start? {c : Char} {place : Cursor} {autosort : Bool} {frame : Frame}
    (hstart : start? c place autosort = some frame) : frame.lexical = Lexical.opened c := by
  unfold start? at hstart
  split at hstart
  next hbrace =>
    cases hstart
    subst hbrace
    rfl
  next =>
    split at hstart
    next hbracket =>
      cases hstart
      subst hbracket
      rfl
    next =>
      split at hstart
      next hquote =>
        cases hstart
        subst hquote
        rfl
      next hquote =>
        split at hstart
        next hliteral =>
          cases hstart
          rw [Literal.starts] at hliteral
          rw [Lexical.opened, if_neg hquote, if_pos hliteral]
          rfl
        next => cases hstart

/-- Where a text stands behind a character that a container takes in outside of keys. -/
theorem Frame.follows_of_start? {c : Char} {place : Cursor} {autosort : Bool} {hole : Hole}
    {defect : Defect} {turn : Turn}
    (hfeed : (match start? c place autosort with
      | some frame => .ok (.descend hole frame)
      | none => .error (.malformed place defect) : Except Fault Turn) = .ok turn) :
    turn.Follows .between c := by
  split at hfeed
  next frame hstart =>
    cases hfeed
    exact lexical_of_start? hstart
  next => cases hfeed

/-- An object stands between tokens, except inside a key. -/
theorem Frame.follows_of_feedObject {node : Tree} {phase : ObjectPhase} {c : Char} {place : Cursor}
    {turn : Turn} (hfeed : feedObject node phase c place = .ok turn) :
    turn.Follows (Frame.object node phase).lexical c := by
  have hblank := @Lexical.opened_of_isBlank c
  have hsep := @Lexical.opened_of_separator c
  have hquote := Lexical.opened_quote
  cases phase with
  | keyOrClose => grind [feedObject, Turn.Follows, Frame.lexical, Lexical.next, Quoted.lexical]
  | nextKey => grind [feedObject, Turn.Follows, Frame.lexical, Lexical.next, Quoted.lexical]
  | key body =>
      simp only [feedObject] at hfeed
      split at hfeed
      next => cases hfeed
      next after hmore =>
        cases hfeed
        exact Quoted.lexical_more hmore
      next key hclosed =>
        split at hfeed
        next => cases hfeed
        next =>
          cases hfeed
          exact (Quoted.lexical_closed hclosed).symm
  | colon key => grind [feedObject, Turn.Follows, Frame.lexical, Lexical.next]
  | value key =>
      simp only [feedObject] at hfeed
      split at hfeed
      next hc =>
        cases hfeed
        exact (hblank hc).symm
      next => exact follows_of_start? hfeed
  | commaOrClose => grind [feedObject, Turn.Follows, Frame.lexical, Lexical.next]

/-- An array stands between tokens. -/
theorem Frame.follows_of_feedArray {node : Tree} {phase : ArrayPhase} {c : Char} {place : Cursor}
    {turn : Turn} (hfeed : feedArray node phase c place = .ok turn) : turn.Follows .between c := by
  have hblank := @Lexical.opened_of_isBlank c
  have hsep := @Lexical.opened_of_separator c
  cases phase with
  | valueOrClose =>
      simp only [feedArray] at hfeed
      split at hfeed
      next hc =>
        cases hfeed
        exact (hblank hc).symm
      next =>
        split at hfeed
        next hc =>
          cases hfeed
          exact hsep (.inr (.inr (.inl hc)))
        next => exact follows_of_start? hfeed
  | value =>
      simp only [feedArray] at hfeed
      split at hfeed
      next hc =>
        cases hfeed
        exact (hblank hc).symm
      next => exact follows_of_start? hfeed
  | commaOrClose => grind [feedArray, Turn.Follows, Frame.lexical, Lexical.next]

/-- What a value makes of a character fits where the text stands. -/
theorem Frame.follows_of_feed {frame : Frame} {c : Char} {place : Cursor} {turn : Turn}
    (hfeed : frame.feed c place = .ok turn) : turn.Follows frame.lexical c := by
  cases frame with
  | object node phase => exact follows_of_feedObject hfeed
  | array node phase => exact follows_of_feedArray hfeed
  | string body =>
      simp only [Frame.feed] at hfeed
      split at hfeed
      next => cases hfeed
      next after hmore =>
        cases hfeed
        exact Quoted.lexical_more hmore
      next text hclosed =>
        cases hfeed
        exact Quoted.lexical_closed hclosed
  | literal start token =>
      simp only [Frame.feed, ← Lexical.runsOn_eq] at hfeed
      split at hfeed
      next hruns =>
        cases hfeed
        exact (if_pos hruns).symm
      next hruns =>
        obtain ⟨value, hvalue, rfl⟩ := map_eq_ok_iff.mp hfeed
        exact if_neg hruns

/-- A container that took in a value stands between tokens. -/
theorem Hole.lexical_of_fill {hole : Hole} {value : Tree} {place : Cursor} {frame : Frame}
    (hfill : hole.fill value place = .ok frame) : frame.lexical = .between := by
  cases hole with
  | member node key => grind [Hole.fill, Frame.lexical]
  | element node => grind [Hole.fill, Frame.lexical]

theorem Progress.lexical_of_deliver {value : Tree} {around : List Hole} {place : Cursor}
    {progress : Progress} (hdeliver : deliver value around place = .ok progress) :
    progress.lexical = .between := by
  cases around with
  | nil =>
      cases hdeliver
      rfl
  | cons hole outer =>
      obtain ⟨frame, hfill, rfl⟩ := map_eq_ok_iff.mp hdeliver
      exact Hole.lexical_of_fill hfill

/-- Without stoppers, a reader stands where the text does behind every character. -/
theorem Progress.lexical_of_feed {autosort : Bool} {c : Char} {place : Cursor} {top : Frame}
    {around : List Hole} {next : Progress × Bool}
    (hfeed : Progress.feed ⟨[], autosort⟩ c place top around = .ok next) :
    next.1.lexical = top.lexical.next c ∧ next.2 = false := by
  refine Progress.feed_induction (fun frame _ => frame.lexical.next c = top.lexical.next c)
    (fun next => next.1.lexical = top.lexical.next c ∧ next.2 = false) ?_ ?_ ?_ ?_ ?_ ?_ rfl hfeed
  · intro frame around after hstands hturn
    exact ⟨(Frame.follows_of_feed hturn).trans hstands, rfl⟩
  · intro frame around hole after hstands hturn
    exact ⟨(Frame.follows_of_feed hturn).trans hstands, rfl⟩
  · intro frame around value last hstands hturn hdeliver
    have hclosed : frame.lexical.next c = .between := Frame.follows_of_feed hturn
    exact ⟨(lexical_of_deliver hdeliver).trans (hclosed.symm.trans hstands), rfl⟩
  · intro frame value stopped hstands hturn hstops hends
    have hleft : frame.lexical.next c = Lexical.opened c := Frame.follows_of_feed hturn
    subst hstops
    have hblank := Lexical.opened_of_isBlank hends
    exact ⟨hblank.symm.trans (hleft.symm.trans hstands), rfl⟩
  · intro frame hole outer value after hstands hturn hfill
    have hleft : frame.lexical.next c = Lexical.opened c := Frame.follows_of_feed hturn
    rw [Hole.lexical_of_fill hfill]
    exact hleft.symm.trans hstands
  · intro frame around _ hstops
    cases hstops

/-! ## Characters that do not stop the reader -/

/-- Only a literal is complete before a character, one that it does not go on with. -/
theorem Frame.literal_of_closeBefore {frame : Frame} {c : Char} {place : Cursor} {value : Tree}
    (hfeed : frame.feed c place = .ok (.closeBefore value)) :
    ∃ start token, frame = .literal start token ∧ Literal.continues c = false ∧
      literalValue start token = .ok value := by
  cases frame with
  | object node phase => cases phase <;> grind [Frame.feed, feedObject]
  | array node phase => cases phase <;> grind [Frame.feed, feedArray]
  | string body => grind [Frame.feed]
  | literal start token =>
      simp only [Frame.feed] at hfeed
      split at hfeed
      next => cases hfeed
      next hends =>
        obtain ⟨closed, hvalue, hclosed⟩ := map_eq_ok_iff.mp hfeed
        cases hclosed
        exact ⟨start, token, rfl, Bool.eq_false_iff.mpr hends, hvalue⟩

/-- Inside a token, a frame keeps the character to itself. -/
theorem Frame.keeps {frame : Frame} {c : Char} {place : Cursor} {value : Tree}
    (hinside : frame.lexical.isBetween c = false) :
    frame.feed c place ≠ .ok (.closeBefore value) := by
  intro hfeed
  obtain ⟨start, token, rfl, hends, _⟩ := literal_of_closeBefore hfeed
  simp [Frame.lexical, Lexical.isBetween, Lexical.runsOn_eq, hends] at hinside

theorem Frame.inToken_of_inside {frame : Frame} {c : Char}
    (hinside : frame.lexical.isBetween c = false) : frame.inToken = true := by
  cases frame with
  | object node phase => cases phase <;> first | rfl | cases hinside
  | array node phase => cases hinside
  | string body => rfl
  | literal start token => rfl

/-- A character that stops nothing is taken in as if there were no stoppers. -/
theorem Progress.feed_unstopped {options : ReadOptions} {c : Char} {place : Cursor} {top : Frame}
    {around : List Hole}
    (hgoing : options.stoppers.contains c = false ∨
      ∀ value, top.feed c place ≠ .ok (.closeBefore value)) :
    Progress.feed options c place top around = Progress.feed {} c place top around := by
  induction around generalizing top with
  | nil =>
      unfold Progress.feed
      rcases hgoing with hgoing | hkeeps
      · simp only [hgoing, List.contains_nil]
        rfl
      · split <;> first | rfl | exact absurd ‹_› (hkeeps _)
  | cons hole outer ih =>
      unfold Progress.feed
      rcases hgoing with hgoing | hkeeps
      · have hrest : ∀ frame, Progress.feed options c place frame outer =
            Progress.feed {} c place frame outer := fun frame => ih (.inl hgoing)
        simp only [hgoing, List.contains_nil, hrest]
        rfl
      · split <;> first | rfl | exact absurd ‹_› (hkeeps _)

theorem Frame.literal_of_isBetween {frame : Frame} {c : Char} (hinside : frame.inToken = true)
    (hbetween : frame.lexical.isBetween c = true) :
    ∃ start token, frame = .literal start token := by
  cases frame with
  | object node phase =>
      cases phase with
      | key body => exact absurd hbetween Bool.false_ne_true
      | _ => cases hinside
  | array node phase => cases hinside
  | string body => exact absurd hbetween Bool.false_ne_true
  | literal start token => exact ⟨start, token, rfl⟩

theorem Frame.lexical_of_not_inToken {frame : Frame} (houtside : frame.inToken = false) :
    frame.lexical = .between := by
  cases frame with
  | object node phase =>
      cases phase with
      | key body => cases houtside
      | _ => rfl
  | array node phase => rfl
  | string body => cases houtside
  | literal start token => cases houtside

theorem Progress.tree?_within {top : Frame} (hbetween : top.lexical = .between)
    (around : List Hole) : (within top around).tree? = none := by
  cases top with
  | literal start token => cases hbetween
  | _ => rfl

/-- Between tokens, a frame skips blanks. -/
theorem Frame.feed_blank {frame : Frame} {c : Char} {place : Cursor}
    (hbetween : frame.lexical = .between) (hblank : isBlank c = true) :
    frame.feed c place = .ok (.stay frame) := by
  cases frame with
  | object node phase =>
      refine feedObject_blank ?_ hblank
      rintro body rfl
      cases hbetween
  | array node phase => exact feedArray_blank phase hblank
  | string body => cases hbetween
  | literal start token => cases hbetween

/-- A literal that a stopper or a blank ends is completed, and so is the member of the container
around it if it can be. -/
theorem Progress.feed_of_gap {options : ReadOptions} {c : Char} {place start : Cursor}
    {token : String} {around : List Hole} (hbetween : Lexical.literal.isBetween c = true)
    (hgap : (options.stoppers.contains c || isBlank c) = true) :
    (∃ progress, Progress.feed options c place (.literal start token) around =
        .ok (progress, options.stoppers.contains c) ∧
        progress.tree? = (within (.literal start token) around).tree?) ∨
      ∃ fault, Progress.feed options c place (.literal start token) around = .error fault ∧
        (within (.literal start token) around).tree? = none := by
  have hends : Literal.continues c = false := by
    simpa [Lexical.isBetween, Lexical.runsOn_eq] using hbetween
  unfold Progress.feed Frame.feed
  simp only [hends, Bool.false_eq_true, if_false]
  cases around with
  | nil =>
      cases hvalue : Frame.literalValue start token with
      | error fault => exact .inr ⟨fault, rfl, by simp [tree?, hvalue, Except.toOption]⟩
      | ok value =>
          refine .inl ⟨.done value, ?_, by simp [tree?, hvalue, Except.toOption]⟩
          simp only [Except.map]
          cases hstopper : options.stoppers.contains c with
          | true => rfl
          | false =>
              rw [hstopper, Bool.false_or] at hgap
              simp only [hgap, Bool.false_eq_true, if_false, if_true]
  | cons hole outer =>
      cases hvalue : Frame.literalValue start token with
      | error fault => exact .inr ⟨fault, rfl, rfl⟩
      | ok value =>
          simp only [Except.map]
          cases hfill : hole.fill value place with
          | error fault => exact .inr ⟨fault, rfl, rfl⟩
          | ok frame =>
              have hframe := Hole.lexical_of_fill hfill
              refine .inl ⟨.within frame outer, ?_, tree?_within hframe outer⟩
              cases hstopper : options.stoppers.contains c with
              | true => rfl
              | false =>
                  rw [hstopper, Bool.false_or] at hgap
                  unfold Progress.feed
                  simp only [Frame.feed_blank hframe hgap, Bool.false_eq_true, if_false]

namespace Reader

/-- The reader that reads the same way, but knows no stoppers. -/
def unstopped (reader : Reader) : Reader :=
  { reader with options := { reader.options with stoppers := [] } }

variable {reader : Reader} {c : Char}

@[simp] theorem unstopped_cursor : reader.unstopped.cursor = reader.cursor := rfl

@[simp] theorem unstopped_stoppers : reader.unstopped.options.stoppers = [] := rfl

@[simp] theorem unstopped_progress : reader.unstopped.progress = reader.progress := rfl

/-- A character that stops nothing is taken in as if there were no stoppers. -/
theorem step_unstopped (place : Cursor)
    (hgoing : (reader.options.stoppers.contains c && reader.progress.lexical.isBetween c) = false) :
    reader.step c place = reader.unstopped.step c place := by
  unfold step
  cases hprogress : reader.progress with
  | failed fault => simp [hprogress]
  | fresh =>
      have hmiss : reader.options.stoppers.contains c = false := by
        simpa [hprogress, Progress.lexical, Lexical.isBetween] using hgoing
      simp only [hprogress, hmiss, unstopped_progress, unstopped_stoppers]
      rfl
  | done value =>
      have hmiss : reader.options.stoppers.contains c = false := by
        simpa [hprogress, Progress.lexical, Lexical.isBetween] using hgoing
      simp only [hprogress, hmiss, unstopped_progress, unstopped_stoppers]
      rfl
  | within top around =>
      rw [hprogress, Progress.lexical] at hgoing
      simp only [hprogress, unstopped_progress, unstopped_stoppers, List.contains_nil]
      have hnone : Progress.feed reader.unstopped.options c place top around =
          Progress.feed {} c place top around := Progress.feed_unstopped (.inl rfl)
      rcases Bool.and_eq_false_iff.mp hgoing with hmiss | hinside
      · rw [hmiss, Progress.feed_unstopped (.inl hmiss), hnone]
        rfl
      · rw [Frame.inToken_of_inside hinside,
          Progress.feed_unstopped (.inr fun _ => Frame.keeps hinside), hnone]
        rfl

/-- Without stoppers, a reader stands where the text does behind every character, and it goes on. -/
theorem lexical_of_step {place : Cursor} {next : Progress × Bool}
    (hstep : reader.unstopped.step c place = .ok next) :
    next.1.lexical = reader.progress.lexical.next c ∧ next.2 = false := by
  unfold step at hstep
  cases hprogress : reader.progress with
  | failed fault => simp [hprogress] at hstep
  | fresh =>
      simp only [hprogress, unstopped_progress, unstopped_stoppers, List.contains_nil,
        Bool.false_or] at hstep
      split at hstep
      next hblank =>
        cases hstep
        exact ⟨(Lexical.opened_of_isBlank hblank).symm, rfl⟩
      next =>
        split at hstep
        next frame hstart =>
          cases hstep
          exact ⟨Frame.lexical_of_start? hstart, rfl⟩
        next => cases hstep
  | done value =>
      simp only [hprogress, unstopped_progress, unstopped_stoppers, List.contains_nil,
        Bool.false_or] at hstep
      split at hstep
      next hblank =>
        cases hstep
        exact ⟨(Lexical.opened_of_isBlank hblank).symm, rfl⟩
      next => cases hstep
  | within top around =>
      simp only [hprogress, unstopped_progress, unstopped_stoppers, List.contains_nil,
        Bool.and_false, Bool.false_eq_true, if_false] at hstep
      exact Progress.lexical_of_feed hstep

/-- A stopper or a blank between tokens leaves what the document comes to at its end. A literal that
it ends is completed first, and the document is refused where that fails. -/
theorem step_of_gap (place : Cursor) (hbetween : reader.progress.lexical.isBetween c = true)
    (hgap : (reader.options.stoppers.contains c || isBlank c) = true) :
    (∃ progress, reader.step c place = .ok (progress, reader.options.stoppers.contains c) ∧
        progress.tree? = reader.progress.tree?) ∨
      ∃ fault, reader.step c place = .error fault ∧ reader.progress.tree? = none := by
  unfold step
  cases hprogress : reader.progress with
  | failed fault => exact .inr ⟨fault, rfl, rfl⟩
  | fresh =>
      refine .inl ⟨.fresh, ?_, rfl⟩
      simp only [hgap, if_true]
  | done value =>
      refine .inl ⟨.done value, ?_, rfl⟩
      simp only [hgap, if_true]
  | within top around =>
      rw [hprogress, Progress.lexical] at hbetween
      cases hinside : top.inToken with
      | false =>
          refine .inl ⟨.within top around, ?_, rfl⟩
          cases hstopper : reader.options.stoppers.contains c with
          | true => simp only [hinside, Bool.not_false, Bool.and_true, if_true]
          | false =>
              rw [hstopper, Bool.false_or] at hgap
              have hturn : top.feed c place = .ok (.stay top) :=
                Frame.feed_blank (Frame.lexical_of_not_inToken hinside) hgap
              unfold Progress.feed
              simp only [hturn, Bool.and_false, Bool.false_eq_true, if_false]
      | true =>
          obtain ⟨start, token, rfl⟩ := Frame.literal_of_isBetween hinside hbetween
          simp only [hinside, Bool.not_true, Bool.false_and, Bool.false_eq_true, if_false]
          exact Progress.feed_of_gap hbetween hgap

/-- A stopper or a blank between tokens leaves what the document comes to where it ends. -/
theorem outcome_of_gap (hgoing : reader.stopped = false)
    (hbetween : reader.progress.lexical.isBetween c = true)
    (hgap : (reader.options.stoppers.contains c || isBlank c) = true) (rest : List Char)
    (hlast : rest = [] ∨ reader.options.stoppers.contains c = true) (tree : Tree) :
    reader.outcome (c :: rest) = .ok tree ↔ reader.finish = .ok tree := by
  rw [outcome_cons hgoing, finish_eq_ok_iff]
  rcases step_of_gap (reader.cursor.advance c) hbetween hgap with
    ⟨progress, hstep, htree⟩ | ⟨fault, hstep, htree⟩
  · simp only [hstep, ← htree]
    rcases hlast with rfl | hstopper
    · rw [outcome_nil, finish_eq_ok_iff]
    · rw [outcome_of_stopped hstopper, finish_eq_ok_iff]
  · simp [hstep, htree]

/-- A reader reads with stoppers as without them, up to the first that stands between tokens. -/
theorem outcome_unstopped (hgoing : reader.stopped = false) (text : List Char) (tree : Tree) :
    reader.outcome text = .ok tree ↔
      reader.unstopped.outcome
        (untilStopper reader.options.stoppers reader.progress.lexical text) = .ok tree := by
  induction text generalizing reader with
  | nil => rfl
  | cons c rest ih =>
      unfold untilStopper
      split
      next hstops =>
        obtain ⟨hstopper, hbetween⟩ := Bool.and_eq_true_iff.mp hstops
        have hgap : (reader.options.stoppers.contains c || isBlank c) = true := by
          rw [hstopper, Bool.true_or]
        exact outcome_of_gap hgoing hbetween hgap rest (.inr hstopper) tree
      next hgoes =>
        have hstep := step_unstopped (reader.cursor.advance c) (Bool.eq_false_iff.mpr hgoes)
        have hgoing' : reader.unstopped.stopped = false := hgoing
        rw [outcome_cons hgoing, outcome_cons hgoing', hstep, unstopped_cursor]
        cases hnext : reader.unstopped.step c (reader.cursor.advance c) with
        | error fault => exact Iff.rfl
        | ok next =>
            obtain ⟨progress, stopped⟩ := next
            obtain ⟨hlexical, rfl⟩ : progress.lexical = _ ∧ stopped = false := lexical_of_step hnext
            rw [← hlexical]
            exact @ih { reader with cursor := _, progress, stopped := false } rfl

end Reader

/-- A stopper truncates a document and does nothing else. -/
theorem decode_stoppers (stoppers : List Char) (autosort : Bool) (text : String) (tree : Tree) :
    decode ⟨stoppers, autosort⟩ text = .ok tree ↔
      decode ⟨[], autosort⟩ (String.ofList (untilStopper stoppers .between text.toList)) =
        .ok tree := by
  rw [Reader.decode_eq_outcome, Reader.decode_eq_outcome, String.toList_ofList]
  have hgoing : (Reader.new ⟨stoppers, autosort⟩).stopped = false := rfl
  exact Reader.outcome_unstopped hgoing text.toList tree

end KeyedTree
