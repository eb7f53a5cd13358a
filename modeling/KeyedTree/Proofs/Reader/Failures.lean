import KeyedTree.Proofs.Reader.LifeCycle

/-! # Failures of readers

A reader fails at one character of its text, and its fault says where that character stands; only a
fault of a literal says where the literal starts. Places are counted by lines and columns from one.
A line feed is the exception: a reader that fails at one names the place in front of the next line.
A reader that failed keeps its fault and has no result. It repeats the fault in every call that
gives it a character, and at the end.
-/

namespace KeyedTree

/-! ## Places in a text -/

namespace Cursor

/-- Where the character stands that follows a text. -/
def behind (text : List Char) : Cursor :=
  ⟨1 + text.count '\n', 1 + (text.reverse.takeWhile (· ≠ '\n')).length⟩

/-- Where a reader stands that has read a text. -/
def reached (text : List Char) : Cursor :=
  text.foldl advance start

theorem reached_append (text : List Char) (c : Char) :
    reached (text ++ [c]) = (reached text).advance c := by
  rw [reached, List.foldl_append, List.foldl_cons, List.foldl_nil, ← reached]

theorem reached_eq (text : List Char) :
    reached text = ⟨(behind text).line, (behind text).column - 1⟩ := by
  induction text using List.reverseRecOn with
  | nil => rfl
  | append_singleton text c ih =>
      rw [reached_append, ih, advance]
      by_cases hbreak : c = '\n'
      · subst hbreak
        simp [behind, Nat.add_assoc]
      · simp [behind, hbreak, Nat.add_comm]

/-- What a reader takes for the place of a character that it reads. For a line feed that is the
place in front of the next line. -/
theorem reached_append_eq (text : List Char) (c : Char) :
    reached (text ++ [c]) = if c = '\n' then ⟨(behind text).line + 1, 0⟩ else behind text := by
  rw [reached_append, reached_eq, advance]
  split
  next => rfl
  next =>
    have hcolumn : 1 ≤ (behind text).column := Nat.le_add_right 1 _
    rw [Nat.sub_add_cancel hcolumn]

end Cursor

/-! ## Where faults point -/

/-- The literal that a defect is about. -/
def Defect.literal? : Defect → Option String
  | .unsupportedNumber token => some token
  | .invalidLiteral token => some token
  | .integerOutOfRange token => some token
  | _ => none

/-- A text ends with a literal that starts at a place. -/
def LiteralAt (text : List Char) (place : Cursor) (token : String) : Prop :=
  ∃ front, text = front ++ token.toList ∧ token ≠ "" ∧ place = Cursor.behind front

/-- A fault that a reader meets at a character names the place of that character, or the place of
the first character of a literal that ends in front of it. -/
def Fault.PointsAt (text : List Char) (c : Char) (fault : Fault) : Prop :=
  ∃ place defect, fault = .malformed place defect ∧
    match defect.literal? with
    | none => place = Cursor.reached (text ++ [c])
    | some token => LiteralAt text place token

/-- A literal that is being read is the end of what was read, and the place that it keeps is the
place of its first character. -/
def Frame.Placed (text : List Char) (frame : Frame) : Prop :=
  ∀ start token, frame = .literal start token → LiteralAt text start token

/-- A reader that is inside a literal knows where that starts. -/
def Progress.Placed (text : List Char) (progress : Progress) : Prop :=
  ∀ top around, progress = .within top around → top.Placed text

theorem Quoted.literal?_of_feed {body : Quoted} {c : Char} {defect : Defect}
    (hfeed : body.feed c = .error defect) : defect.literal? = none := by
  have hunit : ∀ {code : Nat} {defect : Defect}, body.pushCodeUnit code = .error defect →
      defect.literal? = none := by
    intro code defect hpush
    unfold pushCodeUnit at hpush
    grind [Defect.literal?]
  unfold feed at hfeed
  split at hfeed
  next =>
    cases hfeed
    rfl
  next =>
    split at hfeed
    next => grind [Defect.literal?]
    next => grind [Defect.literal?]
    next =>
      split at hfeed
      next =>
        cases hfeed
        rfl
      next =>
        simp only at hfeed
        split at hfeed
        next => cases hfeed
        next =>
          cases hpush : body.pushCodeUnit _ with
          | ok next =>
              rw [hpush] at hfeed
              cases hfeed
          | error defect =>
              rw [hpush] at hfeed
              cases hfeed
              exact hunit hpush

theorem Literal.literal?_of_payload {token : String} {defect : Defect}
    (hpayload : Literal.payload token = .error defect) : defect.literal? = some token := by
  unfold Literal.payload at hpayload
  grind [Defect.literal?]

namespace Fault.PointsAt

variable {text : List Char} {c : Char}

/-- A fault at the character itself. -/
theorem of_place {defect : Defect} (hdefect : defect.literal? = none) :
    PointsAt text c (.malformed (Cursor.reached (text ++ [c])) defect) :=
  ⟨_, defect, rfl, by rw [hdefect]⟩

end Fault.PointsAt

namespace Frame

variable {text : List Char} {c : Char} {fault : Fault} {frame : Frame}

theorem placed_of_start? {autosort : Bool}
    (hstart : start? c (Cursor.reached (text ++ [c])) autosort = some frame) :
    frame.Placed (text ++ [c]) := by
  rintro start token rfl
  unfold start? at hstart
  split at hstart
  next => cases hstart
  next =>
    split at hstart
    next => cases hstart
    next =>
      split at hstart
      next => cases hstart
      next =>
        split at hstart
        next hstarts =>
          cases hstart
          have hbreak : c ≠ '\n' := by
            rintro rfl
            cases hstarts
          refine ⟨text, by simp, String.singleton_ne_empty, ?_⟩
          rw [Cursor.reached_append_eq, if_neg hbreak]
        next => cases hstart

theorem pointsAt_of_literalValue {start : Cursor} {token : String}
    (hplaced : LiteralAt text start token) (hvalue : literalValue start token = .error fault) :
    fault.PointsAt text c := by
  unfold literalValue at hvalue
  split at hvalue
  next => cases hvalue
  next defect hpayload =>
    cases hvalue
    refine ⟨start, defect, rfl, ?_⟩
    rw [Literal.literal?_of_payload hpayload]
    exact hplaced

theorem Placed.stay {next : Frame} (hplaced : frame.Placed text)
    (hfeed : frame.feed c (Cursor.reached (text ++ [c])) = .ok (.stay next)) :
    next.Placed (text ++ [c]) := by
  rintro start token rfl
  cases frame with
  | object node phase =>
      simp only [feed] at hfeed
      unfold feedObject at hfeed
      grind
  | array node phase =>
      simp only [feed] at hfeed
      unfold feedArray at hfeed
      grind
  | string body =>
      simp only [feed] at hfeed
      grind
  | literal first front =>
      obtain ⟨before, rfl, hne, hplace⟩ := hplaced first front rfl
      simp only [feed] at hfeed
      split at hfeed
      next =>
        cases hfeed
        exact ⟨before, by simp, by simp, hplace⟩
      next =>
        cases hvalue : literalValue first front with
        | ok value =>
            rw [hvalue] at hfeed
            cases hfeed
        | error fault =>
            rw [hvalue] at hfeed
            cases hfeed

theorem placed_of_descend {hole : Hole} {next : Frame}
    (hfeed : frame.feed c (Cursor.reached (text ++ [c])) = .ok (.descend hole next)) :
    next.Placed (text ++ [c]) := by
  have hstart : ∃ autosort, start? c (Cursor.reached (text ++ [c])) autosort = some next := by
    cases frame with
    | object node phase =>
        simp only [feed] at hfeed
        unfold feedObject at hfeed
        grind
    | array node phase =>
        simp only [feed] at hfeed
        unfold feedArray at hfeed
        grind
    | string body =>
        simp only [feed] at hfeed
        grind
    | literal first front =>
        simp only [feed] at hfeed
        split at hfeed
        next => cases hfeed
        next => cases hvalue : literalValue first front <;> rw [hvalue] at hfeed <;> cases hfeed
  obtain ⟨autosort, hstart⟩ := hstart
  exact placed_of_start? hstart

theorem Placed.pointsAt_of_feed (hplaced : frame.Placed text)
    (hfeed : frame.feed c (Cursor.reached (text ++ [c])) = .error fault) :
    fault.PointsAt text c := by
  have hquoted : ∀ {body : Quoted} {defect : Defect}, body.feed c = .error defect →
      Fault.PointsAt text c (.malformed (Cursor.reached (text ++ [c])) defect) :=
    fun hbody => .of_place (Quoted.literal?_of_feed hbody)
  have hplain : ∀ defect : Defect, defect.literal? = none →
      Fault.PointsAt text c (.malformed (Cursor.reached (text ++ [c])) defect) :=
    fun _ => .of_place
  cases frame with
  | object node phase =>
      simp only [feed] at hfeed
      unfold feedObject at hfeed
      grind [Defect.literal?]
  | array node phase =>
      simp only [feed] at hfeed
      unfold feedArray at hfeed
      grind [Defect.literal?]
  | string body =>
      simp only [feed] at hfeed
      grind
  | literal start token =>
      simp only [feed] at hfeed
      split at hfeed
      next => cases hfeed
      next =>
        cases hvalue : literalValue start token with
        | ok value =>
            rw [hvalue] at hfeed
            cases hfeed
        | error fault =>
            rw [hvalue] at hfeed
            cases hfeed
            exact pointsAt_of_literalValue (hplaced start token rfl) hvalue

end Frame

namespace Progress

variable {options : ReadOptions} {text : List Char} {c : Char} {fault : Fault}

theorem placed_within {top : Frame} (hplaced : top.Placed text) (around : List Hole) :
    (within top around).Placed text := by
  rintro _ _ ⟨⟩
  exact hplaced

/-- A container that a value was put into is no literal. -/
theorem placed_of_fill {hole : Hole} {value : Tree} {place : Cursor} {frame : Frame}
    (hfill : hole.fill value place = .ok frame) : frame.Placed text := by
  rintro start token rfl
  cases hole <;> grind [Hole.fill]

theorem pointsAt_of_fill {hole : Hole} {value : Tree}
    (hfill : hole.fill value (Cursor.reached (text ++ [c])) = .error fault) :
    fault.PointsAt text c := by
  cases hole with
  | member node key =>
      simp only [Hole.fill] at hfill
      split at hfill
      next =>
        cases hfill
        exact .of_place rfl
      next =>
        split at hfill
        next => cases hfill
        next =>
          cases hfill
          exact .of_place rfl
  | element node =>
      simp only [Hole.fill] at hfill
      split at hfill
      next => cases hfill
      next =>
        cases hfill
        exact .of_place rfl

/-- A reader that goes on behind a character still knows where its literal starts. -/
theorem placed_of_feed {top : Frame} {around : List Hole} (hplaced : top.Placed text)
    {next : Progress × Bool}
    (hfeed : Progress.feed options c (Cursor.reached (text ++ [c])) top around = .ok next) :
    next.2 = true ∨ next.1.Placed (text ++ [c]) := by
  refine feed_induction (fun top _ => top.Placed text)
    (fun next => next.2 = true ∨ next.1.Placed (text ++ [c])) ?_ ?_ ?_ ?_ ?_ ?_ hplaced hfeed
  · intro top around frame hplaced hturn
    exact .inr (placed_within (hplaced.stay hturn) _)
  · intro top around hole frame hplaced hturn
    exact .inr (placed_within (Frame.placed_of_descend hturn) _)
  · intro top around value last hplaced hturn hdeliver
    cases around with
    | nil =>
        cases hdeliver
        exact .inr nofun
    | cons hole outer =>
        obtain ⟨frame, hfill, rfl⟩ := map_eq_ok_iff.mp hdeliver
        exact .inr (placed_within (placed_of_fill hfill) _)
  · intro top value stopped _ _ _ _
    exact .inr nofun
  · intro top hole outer value frame _ _ hfill
    exact placed_of_fill hfill
  · intro top around _ _
    exact .inl rfl

theorem pointsAt_of_feed {top : Frame} {around : List Hole} (hplaced : top.Placed text)
    (hfeed : Progress.feed options c (Cursor.reached (text ++ [c])) top around = .error fault) :
    fault.PointsAt text c := by
  -- the containers around a literal that ends read the character after it
  induction around generalizing top with
  | nil =>
      unfold Progress.feed at hfeed
      split at hfeed
      next hturn =>
        cases hfeed
        exact hplaced.pointsAt_of_feed hturn
      next => cases hfeed
      next => cases hfeed
      next => cases hfeed
      next =>
        simp only at hfeed
        split at hfeed
        next => cases hfeed
        next =>
          split at hfeed
          next => cases hfeed
          next =>
            cases hfeed
            exact .of_place rfl
  | cons hole outer ih =>
      unfold Progress.feed at hfeed
      split at hfeed
      next hturn =>
        cases hfeed
        exact hplaced.pointsAt_of_feed hturn
      next => cases hfeed
      next => cases hfeed
      next value _ =>
        rw [deliver] at hfeed
        cases hfill : hole.fill value (Cursor.reached (text ++ [c])) with
        | ok frame =>
            rw [hfill] at hfeed
            cases hfeed
        | error fault =>
            rw [hfill] at hfeed
            cases hfeed
            exact pointsAt_of_fill hfill
      next value _ =>
        simp only at hfeed
        split at hfeed
        next hfill =>
          cases hfeed
          exact pointsAt_of_fill hfill
        next frame hfill =>
          split at hfeed
          next => cases hfeed
          next => exact ih (placed_of_fill hfill) hfeed

end Progress

namespace Reader

variable {options : ReadOptions} {reader : Reader} {text : List Char} {c : Char} {fault : Fault}

theorem placed_of_step (hplaced : reader.progress.Placed text) {next : Progress × Bool}
    (hstep : reader.step c (Cursor.reached (text ++ [c])) = .ok next) :
    next.2 = true ∨ next.1.Placed (text ++ [c]) := by
  unfold step at hstep
  cases hprogress : reader.progress with
  | failed fault => simp [hprogress] at hstep
  | fresh =>
      simp only [hprogress] at hstep
      split at hstep
      next =>
        cases hstep
        exact .inr nofun
      next =>
        split at hstep
        next frame hstart =>
          cases hstep
          exact .inr (Progress.placed_within (Frame.placed_of_start? hstart) _)
        next => cases hstep
  | done value =>
      simp only [hprogress] at hstep
      split at hstep
      next =>
        cases hstep
        exact .inr nofun
      next => cases hstep
  | within top around =>
      simp only [hprogress] at hstep
      split at hstep
      next =>
        cases hstep
        exact .inl rfl
      next => exact Progress.placed_of_feed (hplaced top around hprogress) hstep

theorem pointsAt_of_step (hplaced : reader.progress.Placed text)
    (hlive : ∀ fault, reader.progress ≠ .failed fault)
    (hstep : reader.step c (Cursor.reached (text ++ [c])) = .error fault) :
    fault.PointsAt text c := by
  unfold step at hstep
  cases hprogress : reader.progress with
  | failed fault => exact absurd hprogress (hlive fault)
  | fresh =>
      simp only [hprogress] at hstep
      split at hstep
      next => cases hstep
      next =>
        split at hstep
        next => cases hstep
        next =>
          cases hstep
          exact .of_place rfl
  | done value =>
      simp only [hprogress] at hstep
      split at hstep
      next => cases hstep
      next =>
        cases hstep
        exact .of_place rfl
  | within top around =>
      simp only [hprogress] at hstep
      split at hstep
      next => cases hstep
      next => exact Progress.pointsAt_of_feed (hplaced top around hprogress) hstep

/-- A reader that read a text stands behind it, and inside a literal it knows where that starts. -/
structure Behind (text : List Char) (reader : Reader) : Prop where
  cursor_eq : reader.cursor = Cursor.reached text
  placed : reader.progress.Placed text

theorem behind_of_feedChar (hbehind : reader.stopped = true ∨ reader.Behind text) {next : Reader}
    (hfeed : reader.feedChar c = (.ok (), next)) :
    next.stopped = true ∨ next.Behind (text ++ [c]) := by
  unfold feedChar at hfeed
  split at hfeed
  next => cases hfeed
  next =>
    split at hfeed
    next hstopped =>
      cases hfeed
      exact .inl hstopped
    next hstopped =>
      have hbehind := hbehind.resolve_left hstopped
      simp only [hbehind.cursor_eq, ← Cursor.reached_append] at hfeed
      split at hfeed
      next hstep =>
        cases hfeed
        exact (placed_of_step hbehind.placed hstep).imp_right fun hplaced => ⟨rfl, hplaced⟩
      next => cases hfeed

/-- A text is read character by character, up to a stopper. -/
theorem behind_of_feed (hfeed : (new options).feed text = (.ok (), reader)) :
    reader.stopped = true ∨ reader.Behind text := by
  induction text using List.reverseRecOn generalizing reader with
  | nil =>
      cases hfeed
      exact .inr ⟨rfl, nofun⟩
  | append_singleton text c ih =>
      rw [feed_append] at hfeed
      cases hbefore : (new options).feed text with
      | mk result before =>
          rw [hbefore] at hfeed
          cases result with
          | error fault => cases hfeed
          | ok =>
              have hlast := feed_singleton (live_of_feed (live_new options) hbefore) c
              exact behind_of_feedChar (ih hbefore) (hlast.symm.trans hfeed)

theorem pointsAt_of_feedChar (hbehind : reader.Behind text)
    (hlive : ∀ fault, reader.progress ≠ .failed fault)
    (hfeed : (reader.feedChar c).1 = .error fault) : fault.PointsAt text c := by
  unfold feedChar at hfeed
  split at hfeed
  next earlier hfailed => exact absurd hfailed (hlive earlier)
  next =>
    split at hfeed
    next => cases hfeed
    next =>
      simp only [hbehind.cursor_eq, ← Cursor.reached_append] at hfeed
      split at hfeed
      next => cases hfeed
      next hstep =>
        cases hfeed
        exact pointsAt_of_step hbehind.placed hlive hstep

/-- A text that a reader fails at has a first character that it fails at. -/
theorem feed_error_split (hfeed : (reader.feed text).1 = .error fault) :
    ∃ before c rest next, text = before ++ c :: rest ∧ reader.feed before = (.ok (), next) ∧
      next.stopped = false ∧ (next.feedChar c).1 = .error fault := by
  induction text generalizing reader with
  | nil => cases hfeed
  | cons c rest ih =>
      rw [feed] at hfeed
      split at hfeed
      next => cases hfeed
      next hstopped =>
        split at hfeed
        next next hchar =>
          obtain ⟨before, d, rest, last, rfl, hbefore, hgoing, hfault⟩ := ih hfeed
          refine ⟨c :: before, d, rest, last, rfl, ?_, hgoing, hfault⟩
          rw [feed, if_neg hstopped, hchar]
          exact hbefore
        next next hchar =>
          refine ⟨[], c, rest, reader, rfl, rfl, Bool.eq_false_iff.mpr hstopped, ?_⟩
          rw [hchar]
          exact hfeed

/-! ## Calls to a failed reader -/

/-- A reader that failed meets its fault again in every call that brings a character. -/
theorem takePiece_of_failed (hfailed : reader.progress = .failed fault)
    (hgoing : reader.stopped = false) {piece : Piece} (hsome : piece ≠ .chunk []) :
    reader.takePiece piece = (.error fault, reader) := by
  have hchar : ∀ c, reader.feedChar c = (.error fault, reader) := by
    intro c
    rw [feedChar, hfailed]
  have hfeed : ∀ c rest, reader.feed (c :: rest) = (.error fault, reader) := by
    intro c rest
    rw [feed, hgoing, hchar]
    rfl
  cases piece with
  | chunk text =>
      cases text with
      | nil => exact absurd rfl hsome
      | cons c rest => exact hfeed c rest
  | line text =>
      rw [takePiece, feedLine]
      cases trimEnd '\r' (trimEnd '\n' text) with
      | nil => exact hchar _
      | cons c rest => rw [hfeed]

theorem failed_of_takePiece (hgoing : reader.Failed → reader.stopped = false) {piece : Piece}
    (hfault : (reader.takePiece piece).1 = .error fault) :
    (reader.takePiece piece).2.progress = .failed fault := by
  by_cases hfailed : reader.Failed
  · have hgoing := hgoing hfailed
    obtain ⟨earlier, hprogress⟩ := hfailed
    have hsome : piece ≠ .chunk [] := by
      rintro rfl
      cases hfault
    rw [takePiece_of_failed hprogress hgoing hsome] at hfault ⊢
    cases hfault
    exact hprogress
  · rw [takePiece_eq (not_failed_iff.mp hfailed)] at hfault ⊢
    exact failed_of_feed (Prod.ext hfault rfl)

theorem Failed.takeAll (hfailed : reader.Failed) (pieces : List Piece) :
    reader.takeAll pieces = reader := by
  rw [takeAll_eq_feed, hfailed.feed]

theorem takeAll_append_cons (reader : Reader) (earlier later : List Piece) (piece : Piece) :
    reader.takeAll (earlier ++ piece :: later) =
      (((reader.takeAll earlier).takePiece piece).2).takeAll later := by
  rw [takeAll, List.foldl_append, List.foldl_cons, ← takeAll, ← takeAll]

end Reader

/-- Where a reader says that a text is malformed. The text is read up to a character, and with that
character reading fails; decoding the text fails in the same way. A fault about a literal names the
place of the first character of that literal, which ends right in front of the character. Any other
fault names the place of the character itself, unless that is a line feed: then it names column zero
of the next line. -/
theorem fault_place (options : ReadOptions) (pieces : List Piece) {fault : Fault}
    (hfault : ((Reader.new options).takePieces pieces).1 = .error fault) :
    decode options (String.ofList (pieces.flatMap Piece.chars)) = .error fault ∧
      ∃ before c rest place defect,
        pieces.flatMap Piece.chars = before ++ c :: rest ∧
          ((Reader.new options).feed before).1 = .ok () ∧
          ((Reader.new options).feed (before ++ [c])).1 = .error fault ∧
          fault = .malformed place defect ∧
          match defect.literal? with
          | none => place = if c = '\n' then ⟨(Cursor.behind before).line + 1, 0⟩
              else Cursor.behind before
          | some token => LiteralAt before place token := by
  have hlive := Reader.live_new options
  rw [Reader.takePieces_eq hlive] at hfault
  refine ⟨?_, ?_⟩
  · have hfinish := Reader.finish_feed options (pieces.flatMap Piece.chars)
    rw [← hfinish, Reader.finish, Reader.failed_of_feed (Prod.ext hfault rfl)]
  · obtain ⟨before, c, rest, next, hsplit, hbefore, hgoing, hchar⟩ := Reader.feed_error_split hfault
    have hbehind := (Reader.behind_of_feed hbefore).resolve_left (Bool.eq_false_iff.mp hgoing)
    have hnext := Reader.live_of_feed hlive hbefore
    obtain ⟨place, defect, rfl, hplace⟩ := Reader.pointsAt_of_feedChar hbehind hnext hchar
    rw [Cursor.reached_append_eq] at hplace
    refine ⟨before, c, rest, place, defect, hsplit, by rw [hbefore], ?_, rfl, hplace⟩
    rw [Reader.feed_append, hbefore]
    simp only [Reader.feed_singleton hnext, hchar]

/-- A number that is too big, on a line of its own. The line feed behind it ends it. -/
theorem big_number_place :
    let text : List Char := "[1,\n 9999999999999999999\n".toList
    ((Reader.new {}).takePieces [.line "[1,".toList, .line " 9999999999999999999".toList]).1 =
        .error (.malformed ⟨2, 2⟩ (.integerOutOfRange "9999999999999999999")) ∧
      decode {} (String.ofList text) =
        .error (.malformed ⟨2, 2⟩ (.integerOutOfRange "9999999999999999999")) := by
  have hfault :
      ((Reader.new {}).takePieces [.line "[1,".toList, .line " 9999999999999999999".toList]).1 =
      .error (.malformed ⟨2, 2⟩ (.integerOutOfRange "9999999999999999999")) := rfl
  exact ⟨hfault, (fault_place {} _ hfault).1⟩

/-- A string that is not closed on its line: the line feed is the fourth character of the first
line. -/
theorem open_string_place :
    ((Reader.new {}).feed "\"ab".toList).1 = .ok () ∧
      ((Reader.new {}).feed "\"ab\n".toList).1 = .error (.malformed ⟨2, 0⟩ .unterminatedString) ∧
      Cursor.behind "\"ab".toList = ⟨1, 4⟩ :=
  ⟨rfl, rfl, by decide⟩

/-- A reader that failed repeats its fault, whatever calls are made in between. It has no result.
Every line and every chunk with a character in it is refused with that fault, and so is the end of
the input. The empty chunk is accepted and changes nothing. -/
theorem failed_reader_repeats (options : ReadOptions) (earlier later : List Piece) {piece : Piece}
    {fault : Fault}
    (hfault : (((Reader.new options).takeAll earlier).takePiece piece).1 = .error fault) :
    let reader := (Reader.new options).takeAll (earlier ++ piece :: later)
    (∀ next, next ≠ .chunk [] → reader.takePiece next = (.error fault, reader)) ∧
      reader.takePiece (.chunk []) = (.ok (), reader) ∧
      reader.finish = .error fault ∧
      reader.result? = none ∧
      reader.finalized = false := by
  intro reader
  have hfirst := Reader.failed_of_takePiece (Reader.takeAll_failed_going options earlier) hfault
  have hsame : reader = (((Reader.new options).takeAll earlier).takePiece piece).2 := by
    rw [← Reader.Failed.takeAll ⟨fault, hfirst⟩ later, ← Reader.takeAll_append_cons]
  have hfailed : reader.progress = .failed fault := by rw [hsame, hfirst]
  have hgoing : reader.stopped = false := Reader.takeAll_failed_going options _ ⟨fault, hfailed⟩
  have hresult : reader.result? = none := Reader.Failed.result? ⟨fault, hfailed⟩
  refine ⟨fun _ => Reader.takePiece_of_failed hfailed hgoing, rfl, ?_, hresult, ?_⟩
  · rw [Reader.finish, hfailed]
  · rw [Reader.finalized, hresult]
    rfl

/-- A bracket that opens nothing, and calls behind it. -/
theorem stray_bracket_repeats :
    let reader := (Reader.new {}).takeAll [.chunk " ".toList, .chunk "]".toList, .line "1".toList]
    let fault : Fault := .malformed ⟨1, 2⟩ (.atStart ']')
    reader.takePiece (.line []) = (.error fault, reader) ∧
      reader.takePiece (.chunk []) = (.ok (), reader) ∧ reader.finish = .error fault := by
  intro reader fault
  have hfault : (((Reader.new {}).takeAll [.chunk " ".toList]).takePiece (.chunk "]".toList)).1 =
      .error fault := rfl
  obtain ⟨hrepeats, hempty, hfinish, -⟩ :=
    failed_reader_repeats {} [.chunk " ".toList] [.line "1".toList] hfault
  exact ⟨hrepeats (.line []) nofun, hempty, hfinish⟩

/-- The empty chunk is accepted behind a fault. -/
theorem empty_chunk_accepted :
    ((Reader.new {}).takePiece (.chunk "]".toList)).1 = .error (.malformed ⟨1, 1⟩ (.atStart ']')) ∧
      (((Reader.new {}).takePiece (.chunk "]".toList)).2.takePiece (.chunk [])).1 = .ok () :=
  ⟨rfl, rfl⟩

end KeyedTree
