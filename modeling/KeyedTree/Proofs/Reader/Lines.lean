import Mathlib.Data.List.TakeWhile
import KeyedTree.Proofs.Reader.Stoppers
import KeyedTree.Reader.Stream

/-! # Reading line by line

A stream is taken in line by line, up to the first line behind which the reader is settled: the
document is complete, a stopper was met or reading failed. The lines behind stay unread. Line breaks
lose a carriage return on the way and a line break is added behind the last line, and neither
changes what comes out.
-/

namespace KeyedTree

/-! ## Bytes -/

/-- The bytes of a text in UTF-8. -/
def utf8 (text : List Char) : List UInt8 :=
  text.flatMap String.utf8EncodeChar

theorem utf8_nil : utf8 [] = [] := rfl

theorem utf8_append (first second : List Char) :
    utf8 (first ++ second) = utf8 first ++ utf8 second :=
  List.flatMap_append

theorem utf8_lineFeed : utf8 ['\n'] = [10] := by decide

theorem utf8_ne_nil {text : List Char} (hne : text ≠ []) : utf8 text ≠ [] := by
  cases text with
  | nil => exact absurd rfl hne
  | cons c rest => simp [utf8]

theorem toByteArray_utf8 (text : List Char) :
    ⟨(utf8 text).toArray⟩ = (String.ofList text).toByteArray := by
  rw [String.toByteArray_ofList]
  apply ByteArray.ext
  simp [utf8, List.utf8Encode]

/-- The bytes of a text are decoded to the text, and no others are decoded. -/
theorem decodeUtf8?_eq_some_iff {bytes : List UInt8} {text : List Char} :
    decodeUtf8? bytes = some text ↔ bytes = utf8 text := by
  unfold decodeUtf8? String.fromUTF8?
  constructor
  · intro hdecode
    split at hdecode
    next hvalid =>
      cases hdecode
      have hbytes := toByteArray_utf8 (String.fromUTF8 ⟨bytes.toArray⟩ hvalid).toList
      rw [String.ofList_toList] at hbytes
      have harray := congrArg ByteArray.data hbytes
      exact (List.toArray_inj harray).symm
    next => cases hdecode
  · rintro rfl
    have hvalid := (String.ofList text).isValidUTF8
    rw [← toByteArray_utf8] at hvalid
    have htext : String.fromUTF8 _ hvalid = String.ofList text :=
      String.toByteArray_inj.mp (toByteArray_utf8 text)
    rw [dif_pos hvalid, htext, Option.map_some, String.toList_ofList]

/-- A line feed is encoded by itself, and it is part of no other character. -/
theorem lineFeed_of_mem_utf8EncodeChar {c : Char} (hmem : 10 ∈ String.utf8EncodeChar c) :
    c = '\n' := by
  have hbyte : ∀ n : Nat, 10 = UInt8.ofNat n → n % 256 = 10 := by
    intro n hn
    have hnat := congrArg UInt8.toNat hn
    simpa using hnat.symm
  unfold String.utf8EncodeChar at hmem
  simp only at hmem
  split at hmem
  next hascii =>
    have hvalue := hbyte _ (List.mem_singleton.mp hmem)
    apply Char.toNat_inj.mp
    have hc : c.toNat = 10 := by
      have hval : c.toNat = c.val.toNat := rfl
      omega
    exact hc
  next =>
    -- all other bytes have their highest bit set
    exfalso
    split at hmem
    next =>
      simp only [List.mem_cons, List.not_mem_nil, or_false] at hmem
      rcases hmem with h | h <;> have := hbyte _ h <;> omega
    next =>
      split at hmem
      next =>
        simp only [List.mem_cons, List.not_mem_nil, or_false] at hmem
        rcases hmem with h | h | h <;> have := hbyte _ h <;> omega
      next =>
        simp only [List.mem_cons, List.not_mem_nil, or_false] at hmem
        rcases hmem with h | h | h | h <;> have := hbyte _ h <;> omega

theorem not_mem_utf8 {text : List Char} (hbreak : '\n' ∉ text) : 10 ∉ utf8 text := by
  intro hmem
  obtain ⟨c, hc, hbyte⟩ := List.mem_flatMap.mp hmem
  exact hbreak (lineFeed_of_mem_utf8EncodeChar hbyte ▸ hc)

/-- The bytes up to a line feed are no line feeds. -/
theorem ne_of_mem_utf8 {text : List Char} (hbreak : '\n' ∉ text) :
    ∀ byte ∈ utf8 text, decide (byte ≠ 10) = true := by
  intro byte hbyte
  exact decide_eq_true fun heq => not_mem_utf8 hbreak (heq ▸ hbyte)

theorem splitLine_utf8 {line : List Char} (hbreak : '\n' ∉ line) (rest : List Char) :
    splitLine (utf8 (line ++ '\n' :: rest)) = (utf8 (line ++ ['\n']), utf8 rest) := by
  have hbytes : utf8 (line ++ '\n' :: rest) = utf8 line ++ 10 :: utf8 rest := by
    rw [← List.singleton_append, utf8_append, utf8_append, utf8_lineFeed]
    rfl
  have hne := ne_of_mem_utf8 hbreak
  rw [splitLine, hbytes, List.dropWhile_append_of_pos hne, List.takeWhile_append_of_pos hne,
    utf8_append, utf8_lineFeed]
  simp

theorem splitLine_utf8_last {line : List Char} (hbreak : '\n' ∉ line) :
    splitLine (utf8 line) = (utf8 line, []) := by
  have hdrop : (utf8 line).dropWhile (· ≠ 10) = [] :=
    List.dropWhile_eq_nil_iff.mpr (ne_of_mem_utf8 hbreak)
  rw [splitLine, hdrop]

/-! ## Lines -/

/-- The lines of a text, each up to and including its line feed. The last may have none. -/
def lines : List Char → List (List Char)
  | [] => []
  | c :: rest =>
      if c = '\n' then ['\n'] :: lines rest
      else
        match lines rest with
        | [] => [[c]]
        | line :: more => (c :: line) :: more

/-- The lines of a text make up the text. -/
theorem flatten_lines (text : List Char) : (lines text).flatten = text := by
  induction text with
  | nil => rfl
  | cons c rest ih =>
      unfold lines
      split
      next hbreak => rw [List.flatten_cons, ih, hbreak, List.singleton_append]
      next =>
        split
        next hnone => simpa [hnone] using ih
        next line more hsome => simpa [hsome] using ih

/-- Rows of characters that are the lines of a text. -/
inductive Lined : List (List Char) → Prop
  | nil : Lined []
  | last {line} : line ≠ [] → '\n' ∉ line → Lined [line]
  | cons {line rows} : '\n' ∉ line → Lined rows → Lined ((line ++ ['\n']) :: rows)

theorem lined_lines (text : List Char) : Lined (lines text) := by
  induction text with
  | nil => exact .nil
  | cons c rest ih =>
      unfold lines
      split
      next => exact Lined.cons (List.not_mem_nil : '\n' ∉ []) ih
      next hc =>
        split
        next => exact .last (List.cons_ne_nil c []) (by simpa using Ne.symm hc)
        next line more hsome =>
          rw [hsome] at ih
          cases ih with
          | last hne hbreak =>
              exact .last (List.cons_ne_nil c line) (by simpa using ⟨Ne.symm hc, hbreak⟩)
          | @cons body rows hbreak hrows =>
              have hline : '\n' ∉ c :: body := by simpa using ⟨Ne.symm hc, hbreak⟩
              exact Lined.cons hline hrows

/-! ## Carriage returns -/

/-- A text without its carriage returns in front of line feeds and the one at its end. -/
def dropReturns : List Char → List Char
  | [] => []
  | c :: rest =>
      if c = '\r' ∧ (rest = [] ∨ rest.head? = some '\n') then dropReturns rest
      else c :: dropReturns rest

open Reader (trimEnd)

theorem trimEnd_cons_cons (c d e : Char) (rest : List Char) :
    trimEnd c (d :: e :: rest) = d :: trimEnd c (e :: rest) := by
  simp only [trimEnd, List.getLast?_cons_cons, List.dropLast_cons_cons]
  split <;> rfl

/-- A line loses the carriage return at its end, whether a line feed follows or the end of the
text. -/
theorem dropReturns_append {line rest : List Char} (hbreak : '\n' ∉ line)
    (hrest : rest = [] ∨ rest.head? = some '\n') :
    dropReturns (line ++ rest) = trimEnd '\r' line ++ dropReturns rest := by
  induction line with
  | nil => rfl
  | cons c line ih =>
      have hline := List.not_mem_of_not_mem_cons hbreak
      have ih := ih hline
      cases line with
      | nil =>
          by_cases hc : c = '\r'
          · subst hc
            simp [dropReturns, hrest, trimEnd]
          · simp [dropReturns, hc, trimEnd]
      | cons d line =>
          have hd := List.ne_of_not_mem_cons hline
          have hkept :
              dropReturns (c :: (d :: line ++ rest)) = c :: dropReturns (d :: line ++ rest) := by
            rw [dropReturns, if_neg]
            simp [hd.symm]
          rw [trimEnd_cons_cons, List.cons_append, hkept, ih, List.cons_append]

theorem dropReturns_last {line : List Char} (hbreak : '\n' ∉ line) :
    dropReturns line = trimEnd '\r' line := by
  simpa [dropReturns] using dropReturns_append hbreak (.inl rfl)

theorem dropReturns_line {line : List Char} (hbreak : '\n' ∉ line) (rest : List Char) :
    dropReturns (line ++ '\n' :: rest) = (trimEnd '\r' line ++ ['\n']) ++ dropReturns rest := by
  have hkept : dropReturns ('\n' :: rest) = '\n' :: dropReturns rest := by
    rw [dropReturns, if_neg]
    rintro ⟨hreturn, _⟩
    exact absurd hreturn (by decide)
  rw [dropReturns_append hbreak (.inr rfl), hkept, List.append_assoc, List.singleton_append]

theorem trimEnd_lineFeed (line : List Char) : trimEnd '\n' (line ++ ['\n']) = line := by
  simp [trimEnd]

theorem trimEnd_of_not_mem {c : Char} {line : List Char} (hmem : c ∉ line) :
    trimEnd c line = line := by
  rw [trimEnd, if_neg]
  intro hlast
  exact hmem (List.mem_of_getLast? hlast)

/-! ## Line breaks -/

/-- No quoted text goes over a line break. -/
theorem Quoted.feed_lineFeed (body : Quoted) : ∃ defect, body.feed '\n' = .error defect := by
  unfold feed
  split
  next => exact ⟨_, rfl⟩
  next =>
    cases body.escape with
    | none => exact ⟨_, rfl⟩
    | started => exact ⟨_, rfl⟩
    | unicode digits code => exact ⟨_, rfl⟩

theorem Frame.feed_lineFeed {frame : Frame} (hinside : frame.lexical.isBetween '\n' = false)
    (place : Cursor) : ∃ fault, frame.feed '\n' place = .error fault := by
  cases frame with
  | object node phase =>
      cases phase with
      | key body =>
          obtain ⟨defect, hdefect⟩ := body.feed_lineFeed
          exact ⟨.malformed place defect, by simp only [feed, feedObject, hdefect]⟩
      | _ => cases hinside
  | array node phase => cases hinside
  | string body =>
      obtain ⟨defect, hdefect⟩ := body.feed_lineFeed
      exact ⟨.malformed place defect, by simp only [feed, hdefect]⟩
  | literal start token => cases hinside

namespace Reader

variable {reader : Reader}

/-- A line break inside of a token is a defect. -/
theorem step_lineFeed (place : Cursor) (hinside : reader.progress.lexical.isBetween '\n' = false) :
    (∃ fault, reader.step '\n' place = .error fault) ∧ reader.progress.tree? = none := by
  unfold step
  cases hprogress : reader.progress with
  | within top around =>
      rw [hprogress] at hinside
      have htoken := Frame.inToken_of_inside hinside
      obtain ⟨fault, hfault⟩ := Frame.feed_lineFeed hinside place
      refine ⟨⟨fault, ?_⟩, ?_⟩
      · unfold Progress.feed
        simp only [htoken, hfault, Bool.not_true, Bool.false_and, Bool.false_eq_true, if_false]
      · cases top with
        | literal start token => cases hinside
        | _ => rfl
  | _ =>
      rw [hprogress] at hinside
      cases hinside

/-- A line break at the end of the input changes nothing. -/
theorem outcome_lineBreak (reader : Reader) (tree : Tree) :
    reader.outcome ['\n'] = .ok tree ↔ reader.finish = .ok tree := by
  cases hstopped : reader.stopped with
  | true => rw [outcome_of_stopped hstopped]
  | false =>
      cases hbetween : reader.progress.lexical.isBetween '\n' with
      | true =>
          have hgap : (reader.options.stoppers.contains '\n' || isBlank '\n') = true :=
            Bool.or_eq_true_iff.mpr (.inr rfl)
          exact outcome_of_gap hstopped hbetween hgap [] (.inl rfl) tree
      | false =>
          obtain ⟨⟨fault, hfault⟩, htree⟩ := step_lineFeed (reader.cursor.advance '\n') hbetween
          rw [outcome_cons hstopped, finish_eq_ok_iff]
          simp [hfault, htree]

theorem outcome_append_lineBreak (reader : Reader) (text : List Char) (tree : Tree) :
    reader.outcome (text ++ ['\n']) = .ok tree ↔ reader.outcome text = .ok tree := by
  rw [outcome_append, outcome]
  cases reader.feed text with
  | mk result after =>
      cases result with
      | ok => exact outcome_lineBreak after tree
      | error fault => exact Iff.rfl

/-! ## Reading line by line -/

/-- Whether a reader has nothing more to take in: the document is complete, a stopper was met or
reading failed. -/
def Settled (reader : Reader) : Prop :=
  reader.finalized = true ∨ reader.stopped = true ∨ ∃ fault, reader.progress = .failed fault

/-- A reader behind rows of characters that it took in one by one. -/
def after (reader : Reader) (rows : List (List Char)) : Reader :=
  rows.foldl (fun reader line => (reader.feedLine line).2) reader

/-- How many rows a reader takes in: it goes on up to the first row behind which it is settled, or
to the last. -/
structure Takes (reader : Reader) (rows : List (List Char)) (count : Nat) : Prop where
  within : count ≤ rows.length
  going : ∀ fewer < count, ¬ (reader.after (rows.take fewer)).Settled
  settled : count < rows.length → (reader.after (rows.take count)).Settled

/-- A reader that takes a text in did not fail with it. -/
theorem live_of_step (hlive : ∀ fault, reader.progress ≠ .failed fault) {c : Char} {place : Cursor}
    {next : Progress × Bool} (hstep : reader.step c place = .ok next) :
    ∀ fault, next.1 ≠ .failed fault := by
  unfold step at hstep
  cases hprogress : reader.progress with
  | failed fault => exact absurd hprogress (hlive fault)
  | fresh => grind
  | done value => grind
  | within top around =>
      simp only [hprogress] at hstep
      split at hstep
      next =>
        cases hstep
        intro fault hfailed
        cases hfailed
      next =>
        refine Progress.feed_induction (fun _ _ => True)
          (fun next => ∀ fault, next.1 ≠ .failed fault)
          ?_ ?_ ?_ ?_ ?_ ?_ trivial hstep
        · intro top around frame _ _ fault hfailed
          cases hfailed
        · intro top around hole frame _ _ fault hfailed
          cases hfailed
        · intro top around value last _ _ hdeliver fault hfailed
          subst hfailed
          cases around with
          | nil => cases hdeliver
          | cons hole outer =>
              obtain ⟨frame, _, hwithin⟩ := map_eq_ok_iff.mp hdeliver
              cases hwithin
        · intro top value stopped _ _ _ _ fault hfailed
          cases hfailed
        · intros
          trivial
        · intro top around _ _ fault hfailed
          cases hfailed

theorem live_of_feedChar (hlive : ∀ fault, reader.progress ≠ .failed fault) {c : Char}
    {after : Reader} (hfeed : reader.feedChar c = (.ok (), after)) :
    ∀ fault, after.progress ≠ .failed fault := by
  unfold feedChar at hfeed
  split at hfeed
  next => cases hfeed
  next =>
    split at hfeed
    next =>
      cases hfeed
      exact hlive
    next =>
      simp only at hfeed
      split at hfeed
      next progress stopped hstep =>
        cases hfeed
        exact live_of_step hlive hstep
      next => cases hfeed

theorem live_of_feed (hlive : ∀ fault, reader.progress ≠ .failed fault) {text : List Char}
    {after : Reader} (hfeed : reader.feed text = (.ok (), after)) :
    ∀ fault, after.progress ≠ .failed fault := by
  induction text generalizing reader with
  | nil =>
      cases hfeed
      exact hlive
  | cons c rest ih =>
      unfold feed at hfeed
      split at hfeed
      next =>
        cases hfeed
        exact hlive
      next =>
        split at hfeed
        next next hnext => exact ih (live_of_feedChar hlive hnext) hfeed
        next => cases hfeed

/-- A reader that fails keeps the failure. -/
theorem failed_of_feed {text : List Char} {fault : Fault} {after : Reader}
    (hfeed : reader.feed text = (.error fault, after)) : after.progress = .failed fault := by
  induction text generalizing reader with
  | nil => cases hfeed
  | cons c rest ih =>
      unfold feed at hfeed
      split at hfeed
      next => cases hfeed
      next =>
        split at hfeed
        next => exact ih hfeed
        next hnext =>
          cases hfeed
          grind [feedChar]

theorem feed_singleton (hlive : ∀ fault, reader.progress ≠ .failed fault) (c : Char) :
    reader.feed [c] = reader.feedChar c := by
  unfold feed
  split
  next hstopped =>
    unfold feedChar
    split
    next fault hfailed => exact absurd hfailed (hlive fault)
    next => rw [if_pos hstopped]
  next =>
    split
    next hfed => rw [hfed]; rfl
    next hfed => exact hfed.symm

/-- A line is taken in without the carriage return in front of its line feed, and with a line
feed. -/
theorem feedLine_eq (hlive : ∀ fault, reader.progress ≠ .failed fault) (line : List Char) :
    reader.feedLine line = reader.feed (trimEnd '\r' (trimEnd '\n' line) ++ ['\n']) := by
  rw [feedLine, feed_append]
  split
  next after hfed => rw [feed_singleton (live_of_feed hlive hfed)]
  next hfed => rfl

theorem not_settled_new (options : ReadOptions) : ¬ (new options).Settled := by
  rintro (hdone | hstopped | ⟨fault, hfailed⟩)
  · cases hdone
  · cases hstopped
  · cases hfailed

theorem live_of_not_settled (hgoing : ¬ reader.Settled) (fault : Fault) :
    reader.progress ≠ .failed fault := by
  intro hfailed
  exact hgoing (.inr (.inr ⟨fault, hfailed⟩))

theorem Settled.complete (hsettled : reader.Settled)
    (hlive : ∀ fault, reader.progress ≠ .failed fault) :
    (reader.finalized || reader.stopped) = true := by
  rcases hsettled with hdone | hstopped | ⟨fault, hfailed⟩
  · rw [hdone, Bool.true_or]
  · rw [hstopped, Bool.or_true]
  · exact absurd hfailed (hlive fault)

theorem Takes.nil (reader : Reader) : reader.Takes [] 0 := by
  refine ⟨le_rfl, ?_, ?_⟩
  · intro fewer hfewer
    omega
  · intro hcount
    simp at hcount

/-- A reader that the first row settles takes in that row. -/
theorem Takes.first {line : List Char} {rows : List (List Char)} (hgoing : ¬ reader.Settled)
    (hsettled : rows = [] ∨ (reader.feedLine line).2.Settled) : reader.Takes (line :: rows) 1 := by
  refine ⟨by simp, ?_, ?_⟩
  · intro fewer hfewer
    obtain rfl : fewer = 0 := by omega
    exact hgoing
  · intro hcount
    rcases hsettled with rfl | hsettled
    · simp at hcount
    · exact hsettled

/-- A reader that the first row does not settle goes on with the others. -/
theorem Takes.cons {line : List Char} {rows : List (List Char)} {count : Nat}
    (hgoing : ¬ reader.Settled) (htakes : (reader.feedLine line).2.Takes rows count) :
    reader.Takes (line :: rows) (count + 1) := by
  refine ⟨Nat.succ_le_succ htakes.within, ?_, ?_⟩
  · intro fewer hfewer
    cases fewer with
    | zero => exact hgoing
    | succ fewer => exact htakes.going fewer (Nat.lt_of_succ_lt_succ hfewer)
  · intro hcount
    exact htakes.settled (Nat.lt_of_succ_lt_succ hcount)

/-- What a reader comes to with a stream, and the bytes it leaves unread. -/
def streamed (reader : Reader) (bytes : List UInt8) : Except Fault Tree × List UInt8 :=
  match reader.readLines bytes with
  | (.ok (), reader, rest) => (reader.finish, rest)
  | (.error fault, _, rest) => (.error fault, rest)

theorem streamed_nil (reader : Reader) : reader.streamed [] = (reader.finish, []) := by
  rw [streamed, readLines, dif_pos rfl]

/-- A reader that is complete leaves the rest of a stream unread. -/
theorem streamed_of_complete (hcomplete : (reader.finalized || reader.stopped) = true)
    (bytes : List UInt8) : reader.streamed bytes = (reader.finish, bytes) := by
  unfold streamed readLines
  by_cases hnone : bytes = []
  · rw [dif_pos hnone]
  · rw [dif_neg hnone, if_pos hcomplete]

/-- A reader that is not settled takes in the next line of a stream. -/
theorem streamed_line (hgoing : ¬ reader.Settled) {bytes rest : List UInt8} {line : List Char}
    (hnone : bytes ≠ []) (hsplit : splitLine bytes = (utf8 line, rest)) :
    reader.streamed bytes =
      match reader.feedLine line with
      | (.ok (), reader) => reader.streamed rest
      | (.error fault, _) => (.error fault, rest) := by
  have hopen : (reader.finalized || reader.stopped) = false := by
    cases hcomplete : reader.finalized || reader.stopped with
    | false => rfl
    | true =>
        rcases Bool.or_eq_true_iff.mp hcomplete with hdone | hstopped
        · exact absurd (.inl hdone) hgoing
        · exact absurd (.inr (.inl hstopped)) hgoing
  have hdecode : decodeUtf8? (utf8 line) = some line := decodeUtf8?_eq_some_iff.mpr rfl
  unfold streamed
  rw [readLines, dif_neg hnone, if_neg (Bool.eq_false_iff.mp hopen)]
  simp only [hsplit, hdecode]
  cases reader.feedLine line with
  | mk result after => cases result <;> rfl

/-- A line with its line feed. -/
theorem streamed_cons (hgoing : ¬ reader.Settled) {line : List Char} (hbreak : '\n' ∉ line)
    (rest : List Char) :
    reader.streamed (utf8 (line ++ '\n' :: rest)) =
      match reader.feed (trimEnd '\r' line ++ ['\n']) with
      | (.ok (), reader) => reader.streamed (utf8 rest)
      | (.error fault, _) => (.error fault, utf8 rest) := by
  have hnone : utf8 (line ++ '\n' :: rest) ≠ [] := utf8_ne_nil (by simp)
  rw [streamed_line hgoing hnone (splitLine_utf8 hbreak rest),
    feedLine_eq (live_of_not_settled hgoing), trimEnd_lineFeed]

/-- A line without a line feed. -/
theorem streamed_last (hgoing : ¬ reader.Settled) {line : List Char} (hne : line ≠ [])
    (hbreak : '\n' ∉ line) :
    reader.streamed (utf8 line) = (reader.outcome (trimEnd '\r' line ++ ['\n']), []) := by
  rw [streamed_line hgoing (utf8_ne_nil hne) (splitLine_utf8_last hbreak),
    feedLine_eq (live_of_not_settled hgoing), trimEnd_of_not_mem hbreak, outcome]
  cases reader.feed (trimEnd '\r' line ++ ['\n']) with
  | mk result after =>
      cases result with
      | ok => exact streamed_nil after
      | error fault => rfl

/-- Reading a stream line by line comes to what the lines taken in come to as one text. -/
theorem streamed_lined {rows : List (List Char)} (hrows : Lined rows) (hgoing : ¬ reader.Settled) :
    ∃ count, reader.Takes rows count ∧
      (reader.streamed (utf8 rows.flatten)).2 = utf8 (rows.drop count).flatten ∧
      ∀ tree, (reader.streamed (utf8 rows.flatten)).1 = .ok tree ↔
        reader.outcome (dropReturns (rows.take count).flatten) = .ok tree := by
  induction hrows generalizing reader with
  | nil =>
      refine ⟨0, .nil reader, ?_, ?_⟩
      · rw [List.flatten_nil, utf8_nil, streamed_nil]
        rfl
      · intro tree
        rw [List.flatten_nil, utf8_nil, streamed_nil]
        rfl
  | @last line hne hbreak =>
      have hstream := streamed_last hgoing hne hbreak
      refine ⟨1, .first hgoing (.inl rfl), ?_, ?_⟩
      · rw [List.flatten_singleton, hstream]
        rfl
      · intro tree
        have htaken : (List.take 1 [line]).flatten = line := List.flatten_singleton
        rw [List.flatten_singleton, htaken, hstream, dropReturns_last hbreak]
        exact outcome_append_lineBreak reader _ tree
  | @cons line rows hbreak hrows ih =>
      have hflat : ((line ++ ['\n']) :: rows).flatten = line ++ '\n' :: rows.flatten := by simp
      have hstream := streamed_cons hgoing hbreak rows.flatten
      have hline := feedLine_eq (live_of_not_settled hgoing) (line ++ ['\n'])
      rw [trimEnd_lineFeed] at hline
      have htaken : ∀ count, dropReturns (((line ++ ['\n']) :: rows).take (count + 1)).flatten =
          (trimEnd '\r' line ++ ['\n']) ++ dropReturns (rows.take count).flatten := by
        intro count
        rw [← dropReturns_line hbreak]
        simp
      cases hfed : reader.feed (trimEnd '\r' line ++ ['\n']) with
      | mk result after =>
          rw [hfed] at hstream hline
          cases result with
          | error fault =>
              have hsettled : (reader.feedLine (line ++ ['\n'])).2.Settled := by
                rw [hline]
                exact .inr (.inr ⟨fault, failed_of_feed hfed⟩)
              refine ⟨1, .first hgoing (.inr hsettled), ?_, ?_⟩
              · rw [hflat, hstream]
                rfl
              · intro tree
                rw [hflat, hstream, htaken 0, outcome_append, hfed]
          | ok =>
              by_cases hsettled : after.Settled
              · have hcomplete := hsettled.complete (live_of_feed (live_of_not_settled hgoing) hfed)
                have hfirst : (reader.feedLine (line ++ ['\n'])).2.Settled := by rwa [hline]
                simp only [streamed_of_complete hcomplete] at hstream
                refine ⟨1, .first hgoing (.inr hfirst), ?_, ?_⟩
                · rw [hflat, hstream]
                  rfl
                · intro tree
                  rw [hflat, hstream, htaken 0, outcome_append, hfed]
                  rfl
              · obtain ⟨count, htakes, hleft, htree⟩ := ih hsettled
                have hcount :
                    (reader.feedLine (line ++ ['\n'])).2.Takes rows count := by rwa [hline]
                refine ⟨count + 1, .cons hgoing hcount, ?_, ?_⟩
                · rw [hflat, hstream]
                  exact hleft
                · intro tree
                  rw [hflat, hstream, htaken, outcome_append, hfed]
                  exact htree tree

end Reader

/-- Reading from a stream takes in the shortest row of whole lines behind which the reader is
settled, or all lines, and leaves the others unread. It comes to the tree of the text that was taken
in, without the carriage returns at the ends of the lines. -/
theorem readStream_lines (options : ReadOptions) (text : String) :
    ∃ count, (Reader.new options).Takes (lines text.toList) count ∧
      (readStream options (utf8 text.toList)).2 = utf8 ((lines text.toList).drop count).flatten ∧
      ∀ tree, (readStream options (utf8 text.toList)).1 = .ok tree ↔
        decode options (String.ofList (dropReturns ((lines text.toList).take count).flatten)) =
          .ok tree := by
  obtain ⟨count, htakes, hleft, htree⟩ :=
    Reader.streamed_lined (lined_lines text.toList) (Reader.not_settled_new options)
  rw [flatten_lines] at hleft htree
  refine ⟨count, htakes, hleft, ?_⟩
  intro tree
  rw [Reader.decode_eq_outcome, String.toList_ofList]
  exact htree tree

end KeyedTree
