import KeyedTree.Proofs.Reader.Pieces

/-! # The life of a reader

A caller may go on with a reader whatever its calls answered. A failed reader stays as it is, and a
reader that met a stopper takes in nothing more. A reader that is done keeps its tree, until it
fails with a character that may not stand behind a document.
-/

namespace KeyedTree

/-- The form of a container around a value. -/
def Hole.form : Hole → Form
  | .member .. => .object
  | .element _ => .array

namespace Reader

variable {reader : Reader}

/-- The forms of the values that are being read, the innermost first. -/
def openForms (reader : Reader) : List Form :=
  match reader.progress with
  | .within top around => top.form :: around.map Hole.form
  | _ => []

/-- Whether reading failed. -/
def Failed (reader : Reader) : Prop :=
  ∃ fault, reader.progress = .failed fault

/-- The reader behind calls that are made one after the other, also after a fault. -/
def takeAll (reader : Reader) (pieces : List Piece) : Reader :=
  pieces.foldl (fun reader piece => (reader.takePiece piece).2) reader

theorem not_failed_iff : ¬ reader.Failed ↔ ∀ fault, reader.progress ≠ .failed fault :=
  not_exists

theorem result?_eq_some_iff {tree : Tree} :
    reader.result? = some tree ↔ reader.progress = .done tree := by
  unfold result?
  cases reader.progress <;> simp

theorem not_failed_of_done {tree : Tree} (hdone : reader.progress = .done tree) :
    ¬ reader.Failed := by
  rintro ⟨fault, hprogress⟩
  rw [hdone] at hprogress
  cases hprogress

theorem finish_of_result? {tree : Tree} (hresult : reader.result? = some tree) :
    reader.finish = .ok tree := by
  rw [finish, result?_eq_some_iff.mp hresult]

theorem openForms_of_finalized (hfinalized : reader.finalized = true) : reader.openForms = [] := by
  obtain ⟨tree, hresult⟩ := Option.isSome_iff_exists.mp hfinalized
  rw [openForms, result?_eq_some_iff.mp hresult]

/-! ## A failed reader -/

namespace Failed

theorem result? (hfailed : reader.Failed) : reader.result? = none := by
  obtain ⟨fault, hprogress⟩ := hfailed
  rw [Reader.result?, hprogress]

theorem openForms (hfailed : reader.Failed) : reader.openForms = [] := by
  obtain ⟨fault, hprogress⟩ := hfailed
  rw [Reader.openForms, hprogress]

theorem feedChar (hfailed : reader.Failed) (c : Char) : (reader.feedChar c).2 = reader := by
  obtain ⟨fault, hprogress⟩ := hfailed
  rw [Reader.feedChar, hprogress]

theorem feed (hfailed : reader.Failed) (text : List Char) : (reader.feed text).2 = reader := by
  obtain ⟨fault, hprogress⟩ := hfailed
  cases text with
  | nil => rfl
  | cons c rest =>
      rw [Reader.feed, Reader.feedChar, hprogress]
      split <;> rfl

theorem feedLine (hfailed : reader.Failed) (line : List Char) :
    (reader.feedLine line).2 = reader := by
  have hfed := hfailed.feed (trimEnd '\r' (trimEnd '\n' line))
  unfold Reader.feedLine
  split
  next after hafter =>
    rw [hafter] at hfed
    cases hfed
    exact hfailed.feedChar '\n'
  next after hafter =>
    rw [hafter] at hfed
    exact hfed

theorem takePiece (hfailed : reader.Failed) (piece : Piece) :
    (reader.takePiece piece).2 = reader := by
  cases piece with
  | chunk text => exact hfailed.feed text
  | line text => exact hfailed.feedLine text

end Failed

/-- Calls that go on after a fault leave the reader as their text leaves it. -/
theorem takeAll_eq_feed (reader : Reader) (pieces : List Piece) :
    reader.takeAll pieces = (reader.feed (pieces.flatMap Piece.chars)).2 := by
  induction pieces generalizing reader with
  | nil => rfl
  | cons piece rest ih =>
      rw [takeAll, List.foldl_cons, ← takeAll, ih, List.flatMap_cons]
      by_cases hfailed : reader.Failed
      · rw [hfailed.takePiece, hfailed.feed, hfailed.feed]
      · rw [takePiece_eq (not_failed_iff.mp hfailed), feed_append]
        cases hfed : reader.feed piece.chars with
        | mk result after =>
            cases result with
            | ok => rfl
            | error fault => exact Failed.feed ⟨fault, failed_of_feed hfed⟩ _

/-- What each character preserves, a text preserves. -/
theorem feed_preserves (kept : Reader → Prop)
    (hchar : ∀ reader c, kept reader → kept (reader.feedChar c).2) (hkept : kept reader)
    (text : List Char) : kept (reader.feed text).2 := by
  induction text generalizing reader with
  | nil => exact hkept
  | cons c rest ih =>
      have hnext := hchar reader c hkept
      rw [feed]
      split
      next => exact hkept
      next =>
        split
        next after hfed =>
          rw [hfed] at hnext
          exact ih hnext
        next after hfed =>
          rw [hfed] at hnext
          exact hnext

/-- A reader fails only while it takes characters in. -/
theorem feedChar_failed_going (reader : Reader) (c : Char)
    (hgoing : reader.Failed → reader.stopped = false) (hfailed : (reader.feedChar c).2.Failed) :
    (reader.feedChar c).2.stopped = false := by
  by_cases hbefore : reader.Failed
  · rw [hbefore.feedChar]
    exact hgoing hbefore
  · cases hfed : reader.feedChar c with
    | mk result after =>
        rw [hfed] at hfailed
        cases result with
        | ok =>
            exact absurd hfailed
              (not_failed_iff.mpr (live_of_feedChar (not_failed_iff.mp hbefore) hfed))
        | error fault => grind [Reader.feedChar]

theorem takeAll_failed_going (options : ReadOptions) (pieces : List Piece) :
    ((new options).takeAll pieces).Failed → ((new options).takeAll pieces).stopped = false := by
  rw [takeAll_eq_feed]
  exact feed_preserves (fun reader => reader.Failed → reader.stopped = false) feedChar_failed_going
    (fun _ => rfl) _

theorem takeAll_options (options : ReadOptions) (pieces : List Piece) :
    ((new options).takeAll pieces).options = options := by
  rw [takeAll_eq_feed]
  refine feed_preserves (fun reader => reader.options = options) ?_ rfl _
  intro reader c hkept
  grind [feedChar]

/-! ## A stopped reader -/

theorem live_of_stopped (hgoing : reader.Failed → reader.stopped = false)
    (hstopped : reader.stopped = true) : ¬ reader.Failed := by
  intro hfailed
  rw [hgoing hfailed] at hstopped
  cases hstopped

theorem takePiece_of_stopped (hstopped : reader.stopped = true) (hlive : ¬ reader.Failed)
    (piece : Piece) :
    reader.takePiece piece = (.ok (), reader) := by
  rw [takePiece_eq (not_failed_iff.mp hlive)]
  cases piece.chars with
  | nil => rfl
  | cons c rest => rw [feed, if_pos hstopped]

theorem takeAll_of_stopped (hstopped : reader.stopped = true) (hlive : ¬ reader.Failed)
    (pieces : List Piece) : reader.takeAll pieces = reader := by
  induction pieces with
  | nil => rfl
  | cons piece rest ih =>
      rw [takeAll, List.foldl_cons, takePiece_of_stopped hstopped hlive, ← takeAll, ih]

/-! ## A reader that is done -/

/-- Whether a text has a character that is neither blank nor a stopper in front of all its
stoppers. -/
def trails (stoppers text : List Char) : Bool :=
  (text.takeWhile fun c => !stoppers.contains c).any fun c => !isBlank c

theorem trails_cons (stoppers rest : List Char) (c : Char) :
    trails stoppers (c :: rest) =
      (!stoppers.contains c && (!isBlank c || trails stoppers rest)) := by
  unfold trails
  rw [List.takeWhile_cons]
  cases stoppers.contains c <;> simp

/-- Behind a document a stopper ends the input, blanks are skipped and all else is refused. -/
theorem feedChar_of_done {tree : Tree} (hdone : reader.progress = .done tree)
    (hgoing : reader.stopped = false) (c : Char) :
    let place := reader.cursor.advance c
    let fault : Fault := .malformed place (.afterEnd c)
    reader.feedChar c =
      if reader.options.stoppers.contains
        c then (.ok (), { reader with cursor := place, stopped := true })
      else if isBlank c then (.ok (), { reader with cursor := place })
      else (.error fault, { reader with cursor := place, progress := .failed fault }) := by
  obtain ⟨options, cursor, progress, stopped⟩ := reader
  cases hdone
  cases hgoing
  simp only [feedChar, step]
  cases options.stoppers.contains c <;> cases isBlank c <;> rfl

/-- A reader that is done keeps its tree, or it fails with a character that may not follow. -/
theorem feed_of_done {tree : Tree} (hdone : reader.progress = .done tree)
    (hgoing : reader.stopped = false) (text : List Char) :
    ((reader.feed text).2.progress = .done tree ∧ trails reader.options.stoppers text = false) ∨
      ((reader.feed text).2.Failed ∧ trails reader.options.stoppers text = true) := by
  induction text generalizing reader with
  | nil => exact .inl ⟨hdone, rfl⟩
  | cons c rest ih =>
      rw [trails_cons, feed, if_neg (Bool.eq_false_iff.mp hgoing), feedChar_of_done hdone hgoing]
      cases hstops : reader.options.stoppers.contains c with
      | true =>
          left
          cases rest <;> simp [feed, hdone]
      | false =>
          cases hblank : isBlank c with
          | true =>
              have hrest := @ih { reader with cursor := reader.cursor.advance c } hdone hgoing
              simpa using hrest
          | false => exact .inr ⟨⟨_, rfl⟩, rfl⟩

/-- What becomes of a result with further calls. -/
theorem takeAll_of_result? {tree : Tree} (hresult : reader.result? = some tree)
    (pieces : List Piece) :
    ((reader.takeAll pieces).result? = some tree ∨ (reader.takeAll pieces).Failed) ∧
      ((reader.takeAll pieces).Failed ↔
        reader.stopped = false ∧
          trails reader.options.stoppers (pieces.flatMap Piece.chars) = true) := by
  have hdone := result?_eq_some_iff.mp hresult
  have hlive := not_failed_of_done hdone
  cases hstopped : reader.stopped with
  | true =>
      rw [takeAll_of_stopped hstopped hlive]
      exact ⟨.inl hresult, iff_of_false hlive fun htrails => Bool.noConfusion htrails.1⟩
  | false =>
      rw [takeAll_eq_feed]
      rcases feed_of_done hdone hstopped (pieces.flatMap Piece.chars) with
        ⟨hkept, htrails⟩ | ⟨hfailed, htrails⟩
      · rw [htrails]
        exact ⟨.inl (result?_eq_some_iff.mpr hkept),
          iff_of_false (not_failed_of_done hkept) fun htrails => Bool.false_ne_true htrails.2⟩
      · exact ⟨.inr hfailed, iff_of_true hfailed ⟨rfl, htrails⟩⟩

end Reader

end KeyedTree
