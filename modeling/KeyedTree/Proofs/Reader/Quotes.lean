import KeyedTree.Proofs.Grammar.Tokens
import KeyedTree.Proofs.Reader.Outcome

/-! # Quoted texts

Behind an opening quote the characters are read one after the other up to the closing quote. What is
read is a text exactly if the characters spell it. A code unit that is half of a surrogate pair
spells nothing without the other half: the second half must not come first, and nothing may stand
between the first and the second. Values and keys are read in the same way.
-/

namespace KeyedTree

open Grammar

/-! ## Reading up to the closing quote -/

namespace Quoted

variable {body next last : Quoted} {piece rest raw run : List Char} {text : String}
  {high : Option Nat} {code : Nat}

/-- Reads a quoted text to its end: the text and what stands behind the closing quote, or nothing if
the characters end before. -/
def read (body : Quoted) : List Char → Except Defect (Option (String × List Char))
  | [] => .ok none
  | c :: rest =>
      match body.feed c with
      | .error defect => .error defect
      | .ok (.more next) => next.read rest
      | .ok (.closed text) => .ok (some (text, rest))

theorem read_cons_of_more {c : Char} (hfeed : body.feed c = .ok (.more next)) (rest : List Char) :
    body.read (c :: rest) = next.read rest := by
  rw [read, hfeed]

theorem read_cons_of_error {c : Char} {defect : Defect} (hfeed : body.feed c = .error defect)
    (rest : List Char) :
    body.read (c :: rest) = .error defect := by
  rw [read, hfeed]

/-- A text that is read to its end is over with the first character, or it goes on behind it. -/
theorem feed_of_read {c : Char} {result : String × List Char}
    (hread : body.read (c :: rest) = .ok (some result)) :
    (∃ next, body.feed c = .ok (.more next) ∧ next.read rest = .ok (some result)) ∨
      body.feed c = .ok (.closed result.1) ∧ result.2 = rest := by
  rw [read] at hread
  split at hread
  next => cases hread
  next next hfeed => exact .inl ⟨next, hfeed, hread⟩
  next text hfeed =>
    cases hread
    exact .inr ⟨hfeed, rfl⟩

theorem Reads.read_append (hreads : Reads body piece last) (rest : List Char) :
    body.read (piece ++ rest) = last.read rest := by
  induction hreads with
  | nil => rfl
  | more hfeed _ ih => rw [List.cons_append, read_cons_of_more hfeed, ih]

/-- What is read to the end is a spelling with a quote behind it. -/
theorem Stands.spells_of_read (hstands : Stands piece body)
    (hread : body.read raw = .ok (some (text, rest))) :
    ∃ more, raw = more ++ '"' :: rest ∧ Spells (piece ++ more) text := by
  induction raw generalizing piece body with
  | nil => cases hread
  | cons c behind ih =>
      rcases feed_of_read hread with ⟨next, hfeed, hnext⟩ | ⟨hfeed, rfl⟩
      · obtain ⟨more, rfl, hspells⟩ := ih (hstands.more hfeed) hnext
        exact ⟨c :: more, rfl, by simpa using hspells⟩
      · obtain ⟨rfl, hspells⟩ := hstands.closed hfeed
        exact ⟨[], rfl, by simpa using hspells⟩

theorem read_of_spells (hspells : Spells piece text) (rest : List Char) :
    ({} : Quoted).read (piece ++ rest) = (⟨text, .none, none⟩ : Quoted).read rest :=
  (reads_of_spells hspells).read_append rest

/-- A text is read exactly where it is spelled. -/
theorem read_eq_some_iff :
    ({} : Quoted).read raw = .ok (some (text, rest)) ↔
      ∃ spelled, raw = spelled ++ '"' :: rest ∧ Spells spelled text := by
  constructor
  · intro hread
    obtain ⟨spelled, hraw, hspells⟩ := Stands.start.spells_of_read hread
    exact ⟨spelled, hraw, hspells⟩
  · rintro ⟨spelled, rfl, hspells⟩
    rw [read_of_spells hspells]
    rfl

/-! ## Halves of surrogate pairs -/

/-- What a code unit makes of a text does not depend on the digits that were read for it. -/
theorem pushCodeUnit_escape (text : String) (escape : Escape) (high : Option Nat) (code : Nat) :
    (⟨text, escape, high⟩ : Quoted).pushCodeUnit code = (⟨text, .none, high⟩ : Quoted).pushCodeUnit
      code := by
  cases high <;> rfl

/-- The last of four digits hands over the code unit. -/
theorem read_codeUnit (hunit : CodeUnit run code) (rest : List Char) :
    (⟨text, .unicode 0 0, high⟩ : Quoted).read (run ++ rest) =
      match (⟨text, .none, high⟩ : Quoted).pushCodeUnit code with
      | .error defect => .error defect
      | .ok next => next.read rest := by
  obtain ⟨hlength, hrun⟩ := hunit
  cases hrun with
  | nil => cases hlength
  | @more run code c digit hrun hdigit =>
      rw [List.length_append, List.length_singleton] at hlength
      rw [List.append_assoc, (reads_of_hexRun hrun (by omega)).read_append,
        List.singleton_append, read, feed_digit hdigit, if_neg (by omega), pushCodeUnit_escape]
      cases (⟨text, .none, high⟩ : Quoted).pushCodeUnit (16 * code + digit) <;> rfl

/-- An escape that is read to its end has four digits, and their code unit is taken in. -/
theorem codeUnit_of_read {result : String × List Char} (hrun : HexRun run code)
    (hlength : run.length < 4)
    (hread : (⟨text, .unicode run.length code, high⟩ : Quoted).read raw = .ok (some result)) :
    ∃ more behind unit next, raw = more ++ behind ∧ CodeUnit (run ++ more) unit ∧
      (⟨text, .none, high⟩ : Quoted).pushCodeUnit unit = .ok next := by
  induction raw generalizing run code with
  | nil => cases hread
  | cons c behind ih =>
      obtain ⟨digit, hdigit⟩ : ∃ digit, HexDigit c digit := by
        rcases feed_of_read hread with ⟨_, hfeed, _⟩ | ⟨hfeed, _⟩
        · exact digit_of_feed hfeed
        · exact digit_of_feed hfeed
      by_cases hshort : run.length + 1 < 4
      · have hmore : (run ++ [c]).length = run.length + 1 := List.length_append
        rw [read, feed_digit hdigit, if_pos hshort, ← hmore] at hread
        obtain ⟨more, rest, unit, next, rfl, hunit, hpush⟩ :=
          ih (.more hrun hdigit) (hmore ▸ hshort) hread
        exact ⟨c :: more, rest, unit, next, rfl, by simpa using hunit, hpush⟩
      · rw [read, feed_digit hdigit, if_neg hshort, pushCodeUnit_escape] at hread
        cases hpush : (⟨text, .none, high⟩ : Quoted).pushCodeUnit (16 * code + digit) with
        | error defect =>
            rw [hpush] at hread
            cases hread
        | ok next =>
            exact ⟨[c], behind, _, next, rfl, codeUnit_append hrun (by omega) hdigit, hpush⟩

theorem read_unicode (text : String) (high : Option Nat) (raw : List Char) :
    (⟨text, .none, high⟩ : Quoted).read ('\\' :: 'u' :: raw) =
      (⟨text, .unicode 0 0, high⟩ : Quoted).read raw := by
  cases high <;> rfl

/-- A second half spells nothing without a first half before it. -/
theorem read_low (hlow : Low code) (hunit : CodeUnit run code) (rest : List Char) :
    (⟨text, .none, none⟩ : Quoted).read ('\\' :: 'u' :: (run ++ rest)) =
      .error (.invalidCodeUnit code) := by
  have hhigh : isHighSurrogate code = false :=
    Bool.eq_false_iff.mpr fun hhigh => absurd (isHighSurrogate_iff.mp hhigh).2
      (Nat.not_lt.mpr hlow.1)
  have hpush :
      (⟨text, .none, none⟩ : Quoted).pushCodeUnit code = .error (.invalidCodeUnit code) := by
    simp only [pushCodeUnit, hhigh, isLowSurrogate_iff.mpr hlow, Bool.false_eq_true, if_false,
      if_true]
  rw [read_unicode, read_codeUnit hunit, hpush]

/-- A first half waits for the second one. -/
theorem read_high (hhigh : High code) (hunit : CodeUnit run code) (rest : List Char) :
    (⟨text, .none, none⟩ : Quoted).read ('\\' :: 'u' :: (run ++ rest)) =
      (⟨text, .none, some code⟩ : Quoted).read rest := by
  have hpush : (⟨text, .none, none⟩ : Quoted).pushCodeUnit code = .ok ⟨text, .none, some code⟩ :=
    if_pos (isHighSurrogate_iff.mpr hhigh)
  rw [read_unicode, read_codeUnit hunit, hpush]

/-- Behind a first half the characters go on with a second half, or they are not read to the end. -/
theorem low_of_read {first : Nat} {result : String × List Char}
    (hread : (⟨text, .none, some first⟩ : Quoted).read raw = .ok (some result)) :
    ∃ second unit, CodeUnit second unit ∧ Low unit ∧ ('\\' :: 'u' :: second) <+: raw := by
  have hgoes : ∀ {escape : Escape} {c : Char} {rest : List Char},
      (⟨text, escape, some first⟩ : Quoted).read (c :: rest) = .ok (some result) →
        (⟨text, escape, some first⟩ : Quoted).pairs c = true := by
    intro escape c rest hread
    by_contra hpairs
    have hfeed : (⟨text, escape, some first⟩ : Quoted).feed c = .error .loneHighSurrogate := by
      rw [Bool.not_eq_true] at hpairs
      unfold feed
      rw [hpairs]
      rfl
    rw [read_cons_of_error hfeed] at hread
    cases hread
  match raw with
  | [] => cases hread
  | [c] =>
      obtain rfl : c = '\\' := by simpa [pairs] using hgoes hread
      cases hread
  | c :: d :: digits =>
      obtain rfl : c = '\\' := by simpa [pairs] using hgoes hread
      have hstarted :
          (⟨text, .started, some first⟩ : Quoted).read (d :: digits) = .ok (some result) := hread
      obtain rfl : d = 'u' := by simpa [pairs] using hgoes hstarted
      have hunicode :
          (⟨text, .unicode 0 0, some first⟩ : Quoted).read digits = .ok (some result) := hread
      obtain ⟨second, behind, unit, next, rfl, hunit, hpush⟩ :=
        codeUnit_of_read .nil (by decide) hunicode
      have hlow : isLowSurrogate unit = true := by
        by_contra hother
        simp only [pushCodeUnit, hother, if_false] at hpush
        cases hpush
      exact ⟨second, unit, hunit, isLowSurrogate_iff.mp hlow, behind, rfl⟩

end Quoted

/-! ## Readers inside quoted texts -/

/-- What a quoted text is that a reader is inside of. -/
inductive Quotation
  /-- a value of its own, or inside a container -/
  | value
  /-- the key of a member of an object -/
  | key (node : Tree)

namespace Quotation

/-- The innermost frame while the text is being read. -/
def frame : Quotation → Quoted → Frame
  | .value, body => .string body
  | .key node, body => .object node (.key body)

/-- What the closing quote leads to. A text that is a value is handed to the containers around it; a
text that is a key waits for a colon, unless it is empty. -/
def closed (around : List Hole) (place : Cursor) : Quotation → String → Except Fault Progress
  | .value, text => Progress.deliver (.leaf (.string text)) around place
  | .key node, text =>
      if text = "" then .error (.malformed place .emptyKey)
        else .ok (.within (.object node (.colon text)) around)

variable (quotation : Quotation)

@[simp] theorem inToken_frame (body : Quoted) : (quotation.frame body).inToken = true := by
  cases quotation <;> rfl

theorem feed_frame (options : ReadOptions) (c : Char) (place : Cursor) (body : Quoted)
    (around : List Hole) :
    Progress.feed options c place (quotation.frame body) around =
      match body.feed c with
      | .error defect => .error (.malformed place defect)
      | .ok (.more next) => .ok (.within (quotation.frame next) around, false)
      | .ok (.closed text) => (quotation.closed around place text).map fun progress =>
          (progress, false) := by
  unfold Progress.feed
  cases quotation with
  | value =>
      simp only [frame, Frame.feed, closed]
      cases body.feed c with
      | error defect => rfl
      | ok step => cases step <;> rfl
  | key node =>
      simp only [frame, Frame.feed, Frame.feedObject, closed]
      cases body.feed c with
      | error defect => rfl
      | ok step =>
          cases step with
          | more next => rfl
          | closed text => by_cases htext : text = "" <;> simp [htext, Except.map]

end Quotation

namespace Reader

/-- The reader goes on from a place, or it has failed there. -/
def resume (reader : Reader) (place : Cursor) : Except Fault Progress → Except Fault Unit × Reader
  | .ok progress => (.ok (), { reader with cursor := place, progress })
  | .error fault => (.error fault, { reader with cursor := place, progress := .failed fault })

variable {reader : Reader} {quotation : Quotation} {around : List Hole} {body : Quoted}

theorem feedChar_quotation (hinside : reader.progress = .within (quotation.frame body) around)
    (hgoing : reader.stopped = false) (c : Char) :
    let place := reader.cursor.advance c
    reader.feedChar c = reader.resume place
      (match body.feed c with
      | .error defect => .error (.malformed place defect)
      | .ok (.more next) => .ok (.within (quotation.frame next) around)
      | .ok (.closed text) => quotation.closed around place text) := by
  have hfeed := quotation.feed_frame reader.options c (reader.cursor.advance c) body around
  have hstep : reader.step c (reader.cursor.advance c) =
      Progress.feed reader.options c (reader.cursor.advance c) (quotation.frame body) around := by
    rw [step, hinside]
    simp
  rw [feedChar, hinside]
  simp only [hgoing, Bool.false_eq_true, if_false, hstep, hfeed]
  cases body.feed c with
  | error defect => simp [resume, hgoing]
  | ok step =>
      cases step with
      | more next => simp [resume, hgoing]
      | closed text =>
          simp only
          cases quotation.closed around (reader.cursor.advance c) text <;>
            simp [resume, hgoing, Except.map]

/-- What a reader does with what has been read of a quoted text: it fails where the text fails, it
goes on behind the closing quote, and it stays inside as long as there is none. -/
def Follows (reader : Reader) (quotation : Quotation) (around : List Hole) (raw : List Char) :
    Except Defect (Option (String × List Char)) → Prop
  | .error defect => ∃ place, reader.feed raw =
      reader.resume place (.error (.malformed place defect))
  | .ok none => ∃ place body, reader.feed raw =
      reader.resume place (.ok (.within (quotation.frame body) around))
  | .ok (some (text, rest)) => ∃ place, reader.feed raw =
      match reader.resume place (quotation.closed around place text) with
      | (.ok (), after) => after.feed rest
      | (.error fault, after) => (.error fault, after)

/-- What a reader does next it does from the start. -/
theorem Follows.cons {c : Char} {rest : List Char} {place : Cursor} {progress : Progress}
    {result : Except Defect (Option (String × List Char))}
    (hfeed : reader.feed (c :: rest) = feed { reader with cursor := place, progress } rest)
    (hrest : Follows { reader with cursor := place, progress } quotation around rest result) :
    reader.Follows quotation around (c :: rest) result := by
  unfold Follows at hrest ⊢
  rw [hfeed]
  exact hrest

/-- Values and keys are read in the same way. -/
theorem follows_read (hinside : reader.progress = .within (quotation.frame body) around)
    (hgoing : reader.stopped = false) (raw : List Char) :
    reader.Follows quotation around raw (body.read raw) := by
  induction raw generalizing reader body with
  | nil =>
      refine ⟨reader.cursor, body, ?_⟩
      rw [feed, resume, ← hinside]
  | cons c rest ih =>
      have hfirst := feedChar_quotation hinside hgoing c
      have hfeed : reader.feed (c :: rest) =
          match reader.feedChar c with
          | (.ok (), after) => after.feed rest
          | (.error fault, after) => (.error fault, after) := by
        rw [feed]
        exact if_neg (Bool.eq_false_iff.mp hgoing)
      rw [hfirst] at hfeed
      cases hbody : body.feed c with
      | error defect =>
          rw [Quoted.read_cons_of_error hbody]
          rw [hbody] at hfeed
          exact ⟨_, hfeed⟩
      | ok step =>
          cases step with
          | more next =>
              rw [Quoted.read_cons_of_more hbody]
              rw [hbody] at hfeed
              exact .cons hfeed (ih rfl hgoing)
          | closed text =>
              rw [Quoted.read, hbody]
              rw [hbody] at hfeed
              exact ⟨_, hfeed⟩

/-- Where a quoted text is not read to its end, no document is read. -/
theorem Follows.outcome_error {raw : List Char}
    {result : Except Defect (Option (String × List Char))}
    (hfollows : reader.Follows quotation around raw result)
    (hopen : ∀ item, result ≠ .ok (some item)) :
    ∃ fault, reader.outcome raw = .error fault := by
  unfold outcome
  match result with
  | .error defect =>
      obtain ⟨place, hfeed⟩ := hfollows
      rw [hfeed]
      exact ⟨_, rfl⟩
  | .ok none =>
      obtain ⟨place, body, hfeed⟩ := hfollows
      rw [hfeed]
      cases quotation with
      | value => exact ⟨_, rfl⟩
      | key node => exact ⟨_, rfl⟩
  | .ok (some item) => exact absurd rfl (hopen item)

end Reader

/-- A reader that is behind the opening quote of a value or a key. What is read up to the closing
quote is a text exactly if the characters spell it, and the reader goes on with this text. Whatever
stands behind the second half of a surrogate pair without a first one, no document is read, and
neither is one where anything but a second half stands behind a first one. -/
theorem quoted_texts_read_exactly (reader : Reader) (quotation : Quotation) (around : List Hole)
    (hinside : reader.progress = .within (quotation.frame {}) around)
    (hgoing : reader.stopped = false) :
    (∀ raw text rest, ({} : Quoted).read raw = .ok (some (text, rest)) ↔
      ∃ spelled, raw = spelled ++ '"' :: rest ∧ Spells spelled text) ∧
    (∀ raw, reader.Follows quotation around raw (({} : Quoted).read raw)) ∧
    (∀ spelled text unit code rest, Spells spelled text → CodeUnit unit code → Low code →
      ∃ fault, reader.outcome (spelled ++ '\\' :: 'u' :: (unit ++ rest)) = .error fault) ∧
    ∀ spelled text unit code rest, Spells spelled text → CodeUnit unit code → High code →
      (∀ second low, CodeUnit second low → Low low → ¬ ('\\' :: 'u' :: second) <+: rest) →
        ∃ fault, reader.outcome (spelled ++ '\\' :: 'u' :: (unit ++ rest)) = .error fault := by
  have hfollows := Reader.follows_read hinside hgoing
  refine ⟨fun raw text rest => Quoted.read_eq_some_iff, hfollows, ?_, ?_⟩
  · intro spelled text unit code rest hspells hunit hlow
    refine (hfollows _).outcome_error fun item hitem => ?_
    rw [Quoted.read_of_spells hspells, Quoted.read_low hlow hunit] at hitem
    cases hitem
  · intro spelled text unit code rest hspells hunit hhigh hother
    refine (hfollows _).outcome_error fun item hitem => ?_
    rw [Quoted.read_of_spells hspells, Quoted.read_high hhigh hunit] at hitem
    obtain ⟨second, low, hsecond, hlow, hbehind⟩ := Quoted.low_of_read hitem
    exact hother second low hsecond hlow hbehind

theorem Grammar.codeUnit_of_digits {a b c d : Char} {i j k l : Nat} (ha : HexDigit a i)
    (hb : HexDigit b j) (hc : HexDigit c k) (hd : HexDigit d l) :
    CodeUnit [a, b, c, d] (16 * (16 * (16 * (16 * 0 + i) + j) + k) + l) :=
  ⟨rfl, .more (.more (.more (.more .nil ha) hb) hc) hd⟩

/-- A key is a surrogate pair with digits in both cases. The second half alone is not read, nor is
the first half with another escape behind it. -/
theorem paired_key_read_exactly :
    let reader := ((Reader.new {}).feed ['{', '"']).2
    let quotation : Quotation := .key (.node { kind := .object } [])
    let first := ['\\', 'u', 'D', '8', '3', 'd']
    let second := ['\\', 'u', 'd', 'E', '0', '0']
    reader.progress = .within (quotation.frame {}) [] ∧ reader.stopped = false ∧
      CodeUnit ['D', '8', '3', 'd'] 0xD83D ∧ CodeUnit ['d', 'E', '0', '0'] 0xDE00 ∧
      (∃ spelled, first ++ second ++ ['"', ':'] = spelled ++ '"' :: [':'] ∧ Spells spelled "😀") ∧
      reader.Follows quotation [] (first ++ second ++ ['"', ':']) (.ok (some ("😀", [':']))) ∧
      (∃ fault, reader.outcome (second ++ ['"', ':', '1', '}']) = .error fault) ∧
      ∃ fault, reader.outcome (first ++ ['\\', 'n', '"', ':', '1', '}']) = .error fault := by
  intro reader quotation first second
  have hinside : reader.progress = .within (quotation.frame {}) [] := by rfl
  have hgoing : reader.stopped = false := by rfl
  have hdigits : HexDigit '0' 0 ∧ HexDigit '3' 3 ∧ HexDigit '8' 8 ∧ HexDigit 'D' 13 ∧
      HexDigit 'd' 13 ∧ HexDigit 'E' 14 := by
    unfold HexDigit
    decide
  obtain ⟨hzero, hthree, height, hupper, hlower, hfourteen⟩ := hdigits
  have hhigh : CodeUnit ['D', '8', '3', 'd'] 0xD83D :=
    codeUnit_of_digits hupper height hthree hlower
  have hlow : CodeUnit ['d', 'E', '0', '0'] 0xDE00 :=
    codeUnit_of_digits hlower hfourteen hzero hzero
  have hread :
      ({} : Quoted).read (first ++ second ++ ['"', ':']) = .ok (some ("😀", [':'])) := by rfl
  obtain ⟨hexact, hfollows, halone, hother⟩ :=
    quoted_texts_read_exactly reader quotation [] hinside hgoing
  refine ⟨hinside, hgoing, hhigh, hlow, (hexact _ _ _).mp hread, hread ▸ hfollows _, ?_, ?_⟩
  · exact halone [] "" _ _ ['"', ':', '1', '}'] .nil hlow (by unfold Low; decide)
  · refine hother [] "" _ _ ['\\', 'n', '"', ':', '1', '}'] .nil hhigh (by unfold High; decide) ?_
    rintro digits low _ _ ⟨_, hbehind⟩
    cases hbehind

end KeyedTree
