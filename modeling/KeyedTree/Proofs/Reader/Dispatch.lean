import KeyedTree.Proofs.Reader.LifeCycle
import KeyedTree.Proofs.Reader.Stack

/-! # The stack of a reader

A reader with a stack answers all calls as the reader without one. So whatever its calls were, its
stack is in order: below the top there are only containers that wait for the value above them, no
answer is about a stack that is out of order, and the loop is brief about the next character. Both
readers have the same life.
-/

namespace KeyedTree

namespace StackReader

/-- Takes in one piece. -/
def takePiece (reader : StackReader) : Piece → Part (Except Trouble Unit × StackReader)
  | .chunk text => reader.feed text
  | .line text => reader.feedLine text

/-- The reader behind calls that are made one after the other, also after a failure, if they all
return. -/
def takeAll (reader : StackReader) (pieces : List Piece) : Part StackReader :=
  pieces.foldlM (fun reader piece => (reader.takePiece piece).map Prod.snd) reader

theorem feedChar_of_going {reader : StackReader} (hfailure : reader.failure = none)
    (hgoing : reader.stopped = false) {c : Char} {feeds : List Feed}
    {result : Except Trouble StackReader}
    (hstep : { reader with cursor := reader.cursor.advance c }.step c = .some (feeds, result)) :
    reader.feedChar c =
      .some (afterStep { reader with cursor := reader.cursor.advance c } (feeds, result)) := by
  obtain ⟨options, cursor, stack, value, stopped, failure⟩ := reader
  cases hfailure
  cases hgoing
  exact (congrArg (Part.map _) hstep).trans (Part.map_some _ _)

end StackReader

/-- An answer is neither about a stack that is out of order nor about a container that refuses its
member. -/
def Orderly {α : Type} (answer : Except Trouble α) : Prop :=
  ∀ place, (∀ breach, answer ≠ .error (.breach place breach)) ∧
    ∀ reason, answer ≠ .error (.fault (.malformed place (.refusedMember reason)))

theorem orderly_mapError {α : Type} {answer : Except Fault α}
    (hproper : ∀ fault, answer = .error fault → fault.Proper) :
    Orderly (answer.mapError .fault) := by
  intro place
  cases answer with
  | ok value => simp [Except.mapError]
  | error fault =>
      have hfault := hproper fault rfl
      have hrefused (reason : String) : fault ≠ .malformed place (.refusedMember reason) := by
        rintro rfl
        exact hfault
      simpa [Except.mapError] using hrefused

theorem Brief.length_le {options : ReadOptions} {c : Char} {feeds : List Feed}
    (hbrief : Brief options c feeds) :
    feeds.length ≤ 2 := by
  cases hbrief <;> simp

namespace Reader

variable {reader : Reader}

/-! ## The same reader with a stack -/

/-- The same reader with a stack. -/
def stacked (reader : Reader) : StackReader :=
  reader.progress.stacked reader.options reader.cursor reader.stopped

/-- What a call answers and leaves, as the reader with a stack has it. -/
def stackedCall (call : Except Fault Unit × Reader) : Except Trouble Unit × StackReader :=
  (call.1.mapError .fault, call.2.stacked)

/-- A character is answered alike. The loop was brief about it, and below all values that it fed the
containers were waiting. -/
structure Agrees (reader : Reader) (c : Char) (feeds : List Feed) : Prop where
  call : reader.stacked.feedChar c = .some (feeds, stackedCall (reader.feedChar c))
  brief : Brief reader.options c feeds
  waits : ∀ feed ∈ feeds, feed.Waits

theorem stopped_stacked (reader : Reader) : reader.stacked.stopped = reader.stopped := by
  unfold stacked
  cases reader.progress <;> rfl

theorem failure_stacked (hlive : ∀ fault, reader.progress ≠ .failed fault) :
    reader.stacked.failure = none := by
  unfold stacked
  cases hprogress : reader.progress with
  | failed fault => exact absurd hprogress (hlive fault)
  | _ => rfl

theorem waits_stacked (hsound : reader.progress.Sound) :
    ∀ builder ∈ reader.stacked.stack.tail, builder.Waits := by
  unfold stacked
  cases hprogress : reader.progress with
  | within top around =>
      rw [hprogress] at hsound
      exact waits_of_mem hsound.2
  | _ => exact List.forall_mem_nil _

/-- The cursor moves alike. -/
theorem moved_stacked (hgoing : reader.stopped = false) (c : Char) :
    { reader.stacked with cursor := reader.stacked.cursor.advance c } =
      reader.progress.stacked reader.options (reader.cursor.advance c) false := by
  unfold stacked
  rw [hgoing]
  cases reader.progress <;> rfl

/-- A reader that fails drops its stack. -/
theorem dropped_stacked (reader : Reader) (c : Char) (fault : Fault) :
    { reader.stacked with
      cursor := reader.stacked.cursor.advance c, stack := [], result := none,
      failure := .some (.fault fault) } =
      { reader with cursor := reader.cursor.advance c, progress := .failed fault }.stacked := by
  unfold stacked
  cases reader.progress <;> rfl

theorem feedChar_of_going (hlive : ∀ fault, reader.progress ≠ .failed fault)
    (hgoing : reader.stopped = false) (c : Char) :
    reader.feedChar c = match reader.step c (reader.cursor.advance c) with
      | .ok (progress, stopped) =>
          (.ok (), { reader with cursor := reader.cursor.advance c, progress, stopped })
      | .error fault =>
          (.error fault,
            { reader with cursor := reader.cursor.advance c, progress := .failed fault }) := by
  rw [feedChar, if_neg (Bool.eq_false_iff.mp hgoing)]
  cases hprogress : reader.progress with
  | failed fault => exact absurd hprogress (hlive fault)
  | _ => rfl

theorem agrees_of_going (hlive : ∀ fault, reader.progress ≠ .failed fault)
    (hgoing : reader.stopped = false) (hsound : reader.progress.Sound) (c : Char) :
    (∃ feeds, reader.Agrees c feeds) ∧ (reader.feedChar c).2.progress.Sound := by
  obtain ⟨feeds, result, hstep, hsettles, hbrief, hwaits⟩ :=
    dispatches_step hlive hsound c (reader.cursor.advance c)
  rw [← moved_stacked hgoing] at hstep
  have hcall := StackReader.feedChar_of_going (failure_stacked hlive)
    ((stopped_stacked reader).trans hgoing) hstep
  have hplain := feedChar_of_going hlive hgoing c
  generalize reader.step c (reader.cursor.advance c) = next at hsettles hplain
  cases hsettles with
  | fault hproper =>
      simp only [StackReader.afterStep, dropped_stacked] at hcall
      rw [hplain]
      refine ⟨⟨feeds, ?_, hbrief, hwaits⟩, hproper⟩
      rw [hcall, hplain]
      rfl
  | ok progress hprogress =>
      rw [hplain]
      refine ⟨⟨feeds, ?_, hbrief, hwaits⟩, hprogress⟩
      rw [hcall, hplain]
      rfl

theorem agrees_of_failed (hfailed : reader.Failed) (c : Char) : reader.Agrees c [] := by
  obtain ⟨fault, hprogress⟩ := hfailed
  refine ⟨?_, .none, List.forall_mem_nil _⟩
  rw [feedChar, hprogress, stackedCall, stacked, hprogress]
  rfl

theorem feedChar_of_stopped (hlive : ∀ fault, reader.progress ≠ .failed fault)
    (hstopped : reader.stopped = true) (c : Char) : reader.feedChar c = (.ok (), reader) := by
  rw [← feed_singleton hlive, feed, if_pos hstopped]

theorem agrees_of_stopped (hlive : ∀ fault, reader.progress ≠ .failed fault)
    (hstopped : reader.stopped = true) (c : Char) : reader.Agrees c [] := by
  refine ⟨?_, .none, List.forall_mem_nil _⟩
  rw [feedChar_of_stopped hlive hstopped, StackReader.feedChar, failure_stacked hlive,
    stopped_stacked, hstopped]
  rfl

/-- Both readers agree about a character, and the frames and holes can be met behind it. -/
theorem agrees_feedChar (hsound : reader.progress.Sound) (c : Char) :
    (∃ feeds, reader.Agrees c feeds) ∧ (reader.feedChar c).2.progress.Sound := by
  by_cases hfailed : reader.Failed
  · rw [hfailed.feedChar]
    exact ⟨⟨[], agrees_of_failed hfailed c⟩, hsound⟩
  · have hlive := not_failed_iff.mp hfailed
    cases hstopped : reader.stopped with
    | false => exact agrees_of_going hlive hstopped hsound c
    | true =>
        rw [feedChar_of_stopped hlive hstopped]
        exact ⟨⟨[], agrees_of_stopped hlive hstopped c⟩, hsound⟩

theorem sound_feedChar (hsound : reader.progress.Sound) (c : Char) :
    (reader.feedChar c).2.progress.Sound :=
  (agrees_feedChar hsound c).2

/-- The fault of a call is kept, and a kept fault is proper. -/
theorem proper_of_feedChar (hsound : reader.progress.Sound) {c : Char} {fault : Fault}
    (hfault : (reader.feedChar c).1 = .error fault) : fault.Proper := by
  have hkept : (reader.feedChar c).2.progress = .failed fault := by
    grind [feedChar]
  have hafter := sound_feedChar hsound c
  rwa [hkept] at hafter

theorem sound_feed (hsound : reader.progress.Sound) (text : List Char) :
    (reader.feed text).2.progress.Sound :=
  feed_preserves (fun reader => reader.progress.Sound) (fun _ c hkept => sound_feedChar hkept c)
    hsound text

theorem feed_stacked (hsound : reader.progress.Sound) (text : List Char) :
    reader.stacked.feed text = .some (stackedCall (reader.feed text)) := by
  induction text generalizing reader with
  | nil => rfl
  | cons c rest ih =>
      obtain ⟨⟨feeds, hagrees⟩, hafter⟩ := agrees_feedChar hsound c
      rw [StackReader.feed, feed, stopped_stacked, hagrees.call, Part.bind_some]
      cases reader.stopped with
      | true => rfl
      | false =>
          generalize reader.feedChar c = call at hafter ⊢
          obtain ⟨answer, after⟩ := call
          cases answer with
          | ok => exact ih hafter
          | error fault => rfl

theorem proper_of_feed (hsound : reader.progress.Sound) {text : List Char} {fault : Fault}
    (hfault : (reader.feed text).1 = .error fault) : fault.Proper := by
  have hafter := sound_feed hsound text
  have hfed : reader.feed text = (.error fault, (reader.feed text).2) := Prod.ext hfault rfl
  rwa [failed_of_feed hfed] at hafter

theorem takePiece_stacked (hsound : reader.progress.Sound) (piece : Piece) :
    reader.stacked.takePiece piece = .some (stackedCall (reader.takePiece piece)) := by
  cases piece with
  | chunk text => exact feed_stacked hsound text
  | line text =>
      have hline := feed_stacked hsound (trimEnd '\r' (trimEnd '\n' text))
      have hafter := sound_feed hsound (trimEnd '\r' (trimEnd '\n' text))
      rw [StackReader.takePiece, StackReader.feedLine, takePiece, feedLine, hline, Part.bind_some]
      generalize reader.feed (trimEnd '\r' (trimEnd '\n' text)) = call at hafter ⊢
      obtain ⟨answer, after⟩ := call
      cases answer with
      | ok =>
          obtain ⟨⟨feeds, hagrees⟩, -⟩ := agrees_feedChar hafter '\n'
          exact (congrArg (Part.map Prod.snd) hagrees.call).trans (Part.map_some _ _)
      | error fault => rfl

theorem proper_of_takePiece (hsound : reader.progress.Sound) {piece : Piece} {fault : Fault}
    (hfault : (reader.takePiece piece).1 = .error fault) : fault.Proper := by
  cases piece with
  | chunk text => exact proper_of_feed hsound hfault
  | line text =>
      have hafter := sound_feed hsound (trimEnd '\r' (trimEnd '\n' text))
      have hfed := @proper_of_feed reader hsound (trimEnd '\r' (trimEnd '\n' text)) fault
      rw [takePiece, feedLine] at hfault
      generalize reader.feed (trimEnd '\r' (trimEnd '\n' text)) = call at hfault hafter hfed
      obtain ⟨answer, after⟩ := call
      cases answer with
      | ok => exact proper_of_feedChar hafter hfault
      | error => exact hfed hfault

theorem sound_takeAll (hsound : reader.progress.Sound) (pieces : List Piece) :
    (reader.takeAll pieces).progress.Sound := by
  rw [takeAll_eq_feed]
  exact sound_feed hsound _

theorem takeAll_stacked (hsound : reader.progress.Sound) (pieces : List Piece) :
    reader.stacked.takeAll pieces = .some (reader.takeAll pieces).stacked := by
  induction pieces generalizing reader with
  | nil => rfl
  | cons piece rest ih =>
      have hafter : (reader.takePiece piece).2.progress.Sound := sound_takeAll hsound [piece]
      rw [StackReader.takeAll, List.foldlM_cons, takePiece_stacked hsound, Part.map_some,
        Part.bind_eq_bind, Part.bind_some]
      exact ih hafter

theorem finish_stacked (hsound : reader.progress.Sound) :
    reader.stacked.finish = reader.finish.mapError .fault := by
  unfold stacked finish
  cases hprogress : reader.progress with
  | fresh => rfl
  | done value => rfl
  | failed fault => rfl
  | within top around =>
      rw [hprogress] at hsound
      obtain ⟨htop, -⟩ := hsound
      cases top with
      | literal start token =>
          have htoken : token ≠ "" := htop
          cases around with
          | cons hole outer => rfl
          | nil =>
              simp only [Progress.stacked, StackReader.finish, List.map_nil, Frame.builder,
                Builder.finish, Builder.literalValue, if_neg htoken]
              cases Frame.literalValue start token <;> rfl
      | _ => cases around <;> rfl

theorem proper_of_finish (hsound : reader.progress.Sound) {fault : Fault}
    (hfault : reader.finish = .error fault) :
    fault.Proper := by
  unfold finish at hfault
  split at hfault
  next hprogress =>
    cases hfault
    rwa [hprogress] at hsound
  next => cases hfault
  next =>
    cases hfault
    trivial
  next start token _ =>
    unfold Frame.literalValue at hfault
    split at hfault
    next => cases hfault
    next defect hpayload =>
      cases hfault
      exact Literal.proper_of_payload hpayload
  next =>
    cases hfault
    trivial

end Reader

/-- Whatever the calls to a reader were, its stack is in order. Below the top, and below each value
that a next character is handed to, the containers wait for the value above them. No further call is
answered with an error about a stack that is out of order or about a container that refuses its
member, and neither is the end of the input. -/
theorem stack_in_order (options : ReadOptions) (earlier : List Piece) :
    let plain := (Reader.new options).takeAll earlier
    ∃ reader, (StackReader.new options).takeAll earlier = .some reader ∧
      (∀ builder ∈ reader.stack.tail, builder.Waits) ∧
      (∀ c, ∃ feeds answer after, reader.feedChar c = .some (feeds, answer, after) ∧
        answer = (plain.feedChar c).1.mapError .fault ∧ Orderly answer ∧
        ∀ feed ∈ feeds, feed.Waits) ∧
      (∀ piece, ∃ answer after, reader.takePiece piece = .some (answer, after) ∧
        answer = (plain.takePiece piece).1.mapError .fault ∧ Orderly answer) ∧
      reader.finish = plain.finish.mapError .fault ∧ Orderly reader.finish := by
  intro plain
  have hsound : plain.progress.Sound := @Reader.sound_takeAll (Reader.new options) trivial earlier
  refine ⟨plain.stacked, @Reader.takeAll_stacked (Reader.new options) trivial earlier,
    Reader.waits_stacked hsound, ?_, ?_, Reader.finish_stacked hsound, ?_⟩
  · intro c
    obtain ⟨⟨feeds, hagrees⟩, -⟩ := Reader.agrees_feedChar hsound c
    exact ⟨feeds, _, _, hagrees.call, rfl,
      orderly_mapError fun _ => Reader.proper_of_feedChar hsound, hagrees.waits⟩
  · intro piece
    exact ⟨_, _, Reader.takePiece_stacked hsound piece, rfl,
      orderly_mapError fun _ => Reader.proper_of_takePiece hsound⟩
  · rw [Reader.finish_stacked hsound]
    exact orderly_mapError fun _ => Reader.proper_of_finish hsound

/-- A value that is handed to a string is a breach. -/
example (value : Tree) (place : Cursor) :
    (Builder.string true {}).accept value place = .error (.breach place (.nested .string)) := rfl

/-- Whatever the calls to a reader were, the loop ends on the next character, with at most two
values fed. A value that starts inside of another one takes the character in. A character that ends
a literal is taken in by the container below, completes it or is refused. -/
theorem dispatch_ends (options : ReadOptions) (earlier : List Piece) (c : Char) :
    let plain := (Reader.new options).takeAll earlier
    ∃ reader feeds after, (StackReader.new options).takeAll earlier = .some reader ∧
      reader.feedChar c = .some (feeds, (plain.feedChar c).1.mapError .fault, after) ∧
      feeds.length ≤ 2 ∧ Brief options c feeds := by
  intro plain
  have hsound : plain.progress.Sound := @Reader.sound_takeAll (Reader.new options) trivial earlier
  obtain ⟨⟨feeds, hagrees⟩, -⟩ := Reader.agrees_feedChar hsound c
  have hbrief := hagrees.brief
  rw [Reader.takeAll_options] at hbrief
  exact ⟨plain.stacked, feeds, _, @Reader.takeAll_stacked (Reader.new options) trivial earlier,
    hagrees.call, hbrief.length_le, hbrief⟩

/-! ## The life of a reader with a stack -/

/-- A reader with a stack at some point of its life. All further calls return, and what holds of it
then is said in its own fields. -/
structure StackReader.Lives (reader : StackReader) : Prop where
  /-- a complete reader has nothing on its stack -/
  finalized : reader.result.isSome → reader.stack = []
  failed : reader.failure.isSome → reader.result = none ∧ reader.stack = [] ∧ reader.stopped = false
  /-- a stopped reader accepts all further calls, which change nothing that can be asked for -/
  stopped : reader.stopped = true → ∀ later : List Piece, ∃ after,
    reader.takeAll later = .some after ∧
      (∀ piece, ∃ last, after.takePiece piece = .some (.ok (), last)) ∧
      after.result = reader.result ∧ after.finish = reader.finish
  /-- a complete reader keeps its tree, until it fails -/
  complete : ∀ tree, reader.result = some tree →
    reader.finish = .ok tree ∧ ∀ later : List Piece, ∃ after,
      reader.takeAll later = .some after ∧
        (after.result = some tree ∨ after.failure.isSome) ∧
        (after.failure.isSome ↔ reader.stopped = false ∧
          Reader.trails reader.options.stoppers (later.flatMap Piece.chars) = true)

namespace Reader

variable {reader : Reader}

theorem options_stacked (reader : Reader) : reader.stacked.options = reader.options := by
  unfold stacked
  cases reader.progress <;> rfl

theorem result_stacked (reader : Reader) : reader.stacked.result = reader.result? := by
  unfold stacked result?
  cases reader.progress <;> rfl

theorem isSome_failure_stacked : reader.stacked.failure.isSome ↔ reader.Failed := by
  unfold stacked Failed
  cases reader.progress <;> simp [Progress.stacked]

/-- The stack is made of the values that are being read. -/
theorem forms_stacked (reader : Reader) :
    reader.stacked.stack.map Builder.form = reader.openForms := by
  unfold stacked openForms
  cases reader.progress with
  | within top around =>
      have htop : top.builder.form = top.form := by cases top <;> rfl
      have hhole (hole : Hole) : hole.builder.form = hole.form := by cases hole <;> rfl
      simp [Progress.stacked, htop, hhole]
  | _ => rfl

theorem stack_eq_nil (hclosed : reader.openForms = []) : reader.stacked.stack = [] :=
  List.map_eq_nil_iff.mp (reader.forms_stacked.trans hclosed)

theorem lives_stacked (hsound : reader.progress.Sound)
    (hgoing : reader.Failed → reader.stopped = false) :
    reader.stacked.Lives where
  finalized hcomplete := by
    rw [result_stacked] at hcomplete
    exact stack_eq_nil (openForms_of_finalized hcomplete)
  failed hfailure := by
    have hfailed := isSome_failure_stacked.mp hfailure
    rw [result_stacked, stopped_stacked]
    exact ⟨hfailed.result?, stack_eq_nil hfailed.openForms, hgoing hfailed⟩
  stopped hstopped later := by
    rw [stopped_stacked] at hstopped
    have hlive := live_of_stopped hgoing hstopped
    refine ⟨_, takeAll_stacked hsound later, ?_⟩
    rw [takeAll_of_stopped hstopped hlive]
    refine ⟨fun piece => ⟨reader.stacked, ?_⟩, rfl, rfl⟩
    rw [takePiece_stacked hsound, takePiece_of_stopped hstopped hlive]
    rfl
  complete tree hresult := by
    rw [result_stacked] at hresult
    refine ⟨?_, fun later => ⟨_, takeAll_stacked hsound later, ?_⟩⟩
    · rw [finish_stacked hsound, finish_of_result? hresult]
      rfl
    · rw [result_stacked, isSome_failure_stacked, stopped_stacked, options_stacked]
      exact takeAll_of_result? hresult later

end Reader

/-- A reader at any point of its life, with any calls behind it. When it is complete or failed, no
value is being read, and a failed reader has no result and is not stopped. A stopped reader accepts
all further calls, which change neither its result nor what it comes to. A complete reader comes to
its tree. After further calls it has the same tree, or it failed. It fails with a character that is
neither blank nor a stopper and that no stopper keeps away. The reader with a stack has the same
life. -/
theorem reader_life_cycle (options : ReadOptions) (earlier : List Piece) :
    let reader := (Reader.new options).takeAll earlier
    (reader.finalized = true → reader.openForms = []) ∧
      (reader.Failed → reader.result? = none ∧ reader.openForms = [] ∧ reader.stopped = false) ∧
      (reader.stopped = true → ∀ later : List Piece,
        (∀ piece, ((reader.takeAll later).takePiece piece).1 = .ok ()) ∧
          (reader.takeAll later).result? = reader.result? ∧
          (reader.takeAll later).finish = reader.finish) ∧
      (∀ tree, reader.result? = some tree →
        reader.finish = .ok tree ∧
          ∀ later : List Piece,
            ((reader.takeAll later).result? = some tree ∨ (reader.takeAll later).Failed) ∧
              ((reader.takeAll later).Failed ↔
                reader.stopped = false ∧
                  Reader.trails options.stoppers (later.flatMap Piece.chars) = true)) ∧
      ∃ stacked, (StackReader.new options).takeAll earlier = .some stacked ∧
        stacked.options = options ∧ stacked.Lives := by
  intro reader
  have hgoing : reader.Failed → reader.stopped = false :=
    Reader.takeAll_failed_going options earlier
  have hoptions : reader.options = options := Reader.takeAll_options options earlier
  have hsound : reader.progress.Sound := @Reader.sound_takeAll (Reader.new options) trivial earlier
  refine ⟨Reader.openForms_of_finalized, ?_, ?_, ?_, reader.stacked, ?_, ?_, ?_⟩
  · intro hfailed
    exact ⟨hfailed.result?, hfailed.openForms, hgoing hfailed⟩
  · intro hstopped later
    have hlive := Reader.live_of_stopped hgoing hstopped
    rw [Reader.takeAll_of_stopped hstopped hlive]
    refine ⟨?_, rfl, rfl⟩
    intro piece
    rw [Reader.takePiece_of_stopped hstopped hlive]
  · intro tree hresult
    refine ⟨Reader.finish_of_result? hresult, ?_⟩
    intro later
    have hlater := Reader.takeAll_of_result? hresult later
    rwa [hoptions] at hlater
  · exact @Reader.takeAll_stacked (Reader.new options) trivial earlier
  · rw [Reader.options_stacked, hoptions]
  · exact Reader.lives_stacked hsound hgoing

/-- A document with a line break behind it, which is followed by a stopper or by a comma. -/
theorem trailing_comma_fails :
    let reader :=
      (Reader.new { stoppers := [';'] }).takeAll [.chunk "[[".toList, .line "1]]".toList]
    reader.finalized = true ∧ reader.openForms = [] ∧
      ((reader.takeAll [.chunk " ;".toList]).takePiece (.chunk ",".toList)).1 = .ok () ∧
      (reader.takeAll [.chunk " ;,".toList]).result? = reader.result? ∧
      (reader.takeAll [.chunk " ,;".toList]).result? = none := by
  intro reader
  have hfinalized : reader.finalized = true := by decide
  obtain ⟨hclosed, -, -, hdone, -⟩ :=
    reader_life_cycle { stoppers := [';'] } [.chunk "[[".toList, .line "1]]".toList]
  obtain ⟨-, -, hstopped, -, -⟩ := reader_life_cycle { stoppers := [';'] }
    [.chunk "[[".toList, .line "1]]".toList, .chunk " ;".toList]
  obtain ⟨-, hfailed, -, -, -⟩ := reader_life_cycle { stoppers := [';'] }
    [.chunk "[[".toList, .line "1]]".toList, .chunk " ,;".toList]
  obtain ⟨tree, hresult⟩ := Option.isSome_iff_exists.mp hfinalized
  obtain ⟨-, hlater⟩ := hdone tree hresult
  have hstays : ¬ (reader.takeAll [.chunk " ;,".toList]).Failed := by
    intro hfails
    obtain ⟨-, htrails⟩ := (hlater [.chunk " ;,".toList]).2.mp hfails
    exact absurd htrails (by decide)
  refine ⟨hfinalized, hclosed hfinalized, (hstopped (by decide) []).1 _, ?_, (hfailed ?_).1⟩
  · rw [(hlater [.chunk " ;,".toList]).1.resolve_right hstays, hresult]
  · exact (hlater [.chunk " ,;".toList]).2.mpr (by decide)

end KeyedTree
