import KeyedTree.Reader.Basic

/-! # What a reader comes to

A reader comes to a tree or to a fault with the rest of a text and the end of the input behind it.
Reading goes on character by character, and it stops where a stopper is met.
-/

namespace KeyedTree

/-- The tree of a document that ends where it has been read so far. -/
def Progress.tree? : Progress → Option Tree
  | .done value => some value
  | .within (.literal start token) [] => (Frame.literalValue start token).toOption
  | _ => none

namespace Reader

variable {reader : Reader}

theorem finish_eq_ok_iff {tree : Tree} :
    reader.finish = .ok tree ↔ reader.progress.tree? = some tree := by
  unfold finish
  cases reader.progress with
  | fresh => simp [Progress.tree?]
  | done value => simp [Progress.tree?]
  | failed fault => simp [Progress.tree?]
  | within top around =>
      cases top with
      | literal start token =>
          cases around with
          | nil =>
              simp only [Progress.tree?]
              cases Frame.literalValue start token <;> simp [Except.toOption]
          | cons hole outer => simp [Progress.tree?]
      | _ => simp [Progress.tree?]

/-- What a reader comes to with a text behind which the input ends. -/
def outcome (reader : Reader) (text : List Char) : Except Fault Tree :=
  match reader.feed text with
  | (.ok (), reader) => reader.finish
  | (.error fault, _) => .error fault

theorem decode_eq_outcome (options : ReadOptions) (text : String) :
    decode options text = (new options).outcome text.toList := rfl

theorem outcome_nil (reader : Reader) : reader.outcome [] = reader.finish := rfl

/-- A reader that met a stopper ignores what follows. -/
theorem outcome_of_stopped (hstopped : reader.stopped = true) (text : List Char) :
    reader.outcome text = reader.finish := by
  cases text with
  | nil => rfl
  | cons c rest => simp [outcome, feed, hstopped]

/-- A reader that goes on takes in the next character, or it fails. -/
theorem outcome_cons (hgoing : reader.stopped = false) (c : Char) (rest : List Char) :
    reader.outcome (c :: rest) =
      match reader.step c (reader.cursor.advance c) with
      | .ok (progress, stopped) =>
          outcome { reader with cursor := reader.cursor.advance c, progress, stopped } rest
      | .error fault => .error fault := by
  unfold outcome
  rw [feed, if_neg (Bool.eq_false_iff.mp hgoing), feedChar]
  cases hprogress : reader.progress with
  | failed fault => simp only [step, hprogress]
  | _ =>
      simp only [hgoing, Bool.false_eq_true, if_false]
      cases reader.step c (reader.cursor.advance c) <;> rfl

/-- A text is read piece by piece. -/
theorem outcome_append (reader : Reader) (first second : List Char) :
    reader.outcome (first ++ second) =
      match reader.feed first with
      | (.ok (), reader) => reader.outcome second
      | (.error fault, _) => .error fault := by
  rw [outcome, feed_append]
  cases reader.feed first with
  | mk result after => cases result <;> rfl

end Reader

end KeyedTree
