import Mathlib.Tactic.IntervalCases
import KeyedTree.Proofs.Grammar.Basic
import KeyedTree.Reader.Literal
import KeyedTree.Reader.Quoted

/-! # Reading tokens

The reader takes in quoted texts one character at a time and literals as a whole. What it has read
of a quoted text is always the spelling of some text with the beginning of one more character behind
it, and every spelling is read to its end.
-/

namespace KeyedTree

open Grammar

/-! ## Literals -/

namespace Numeral

theorem toNat?_eq_some_iff {text : List Char} {n : Nat} :
    toNat? text = some n ↔ Decimal text n := by
  unfold toNat? Decimal
  by_cases hdigits : text ≠ [] ∧ text.all Char.isDigit = true
  · rw [if_pos hdigits, Option.some.injEq]
    exact ⟨fun heq => ⟨hdigits.1, List.all_eq_true.mp hdigits.2, heq.symm⟩, fun h => h.2.2.symm⟩
  · rw [if_neg hdigits]
    exact iff_of_false nofun fun h => hdigits ⟨h.1, List.all_eq_true.mpr h.2.1⟩

theorem toInt?_minus (digits : List Char) :
    toInt? ('-' :: digits) = (toNat? digits).map fun n : Nat => -(n : Int) := by
  rw [toInt?]
  cases toNat? digits <;> rfl

theorem toInt?_unsigned {text : List Char} (hsign : ∀ digits, text ≠ '-' :: digits) :
    toInt? text = (toNat? text).map fun n : Nat => (n : Int) := by
  unfold toInt?
  split
  next digits => exact absurd rfl (hsign digits)
  next => cases toNat? text <;> rfl

/-- A numeral is a run of digits, or a minus sign with one behind it. -/
theorem toInt?_eq_some_iff {text : List Char} {i : Int} :
    toInt? text = some i ↔
      (∃ n : Nat, Decimal text n ∧ i = n) ∨
        ∃ digits, ∃ n : Nat, text = '-' :: digits ∧ Decimal digits n ∧ i = -(n : Int) := by
  by_cases hsign : ∃ digits, text = '-' :: digits
  · obtain ⟨digits, rfl⟩ := hsign
    simp only [toInt?_minus, Option.map_eq_some_iff, toNat?_eq_some_iff]
    constructor
    · rintro ⟨n, hn, rfl⟩
      exact .inr ⟨digits, n, rfl, hn, rfl⟩
    · rintro (⟨n, ⟨_, hdigits, _⟩, _⟩ | ⟨_, n, htext, hn, rfl⟩)
      · exact absurd (hdigits '-' List.mem_cons_self) (by decide)
      · cases htext
        exact ⟨n, hn, rfl⟩
  · simp only [toInt?_unsigned (not_exists.mp hsign), Option.map_eq_some_iff, toNat?_eq_some_iff]
    constructor
    · rintro ⟨n, hn, rfl⟩
      exact .inl ⟨n, hn, rfl⟩
    · rintro (⟨n, hn, rfl⟩ | ⟨digits, _, htext, _⟩)
      · exact ⟨n, hn, rfl⟩
      · exact absurd ⟨digits, htext⟩ hsign

theorem fitsInt64_iff {n : Int} : fitsInt64 n = true ↔ -2 ^ 63 ≤ n ∧ n < 2 ^ 63 := by
  have hmin : Int64.minValue.toInt = -2 ^ 63 := rfl
  have hmax : Int64.maxValue.toInt = 2 ^ 63 - 1 := rfl
  rw [fitsInt64, decide_eq_true_iff, hmin, hmax]
  omega

end Numeral

namespace Literal

/-- A token of decimal digits, perhaps behind a sign, is not one of the words. -/
theorem payload_of_integer? {token : String} {i : Int} (hinteger : integer? token = some i)
    (hfits : Numeral.fitsInt64 i = true) :
    payload token = .ok (.integer (Int64.ofInt i)) := by
  have hword : token ≠ "true" ∧ token ≠ "false" ∧ token ≠ "null" := by
    refine ⟨?_, ?_, ?_⟩ <;> rintro rfl <;> cases hinteger
  unfold payload
  rw [if_neg hword.1, if_neg hword.2.1, if_neg hword.2.2, hinteger]
  exact if_pos hfits

theorem literal_of_integer? {token : String} {i : Int} (hinteger : integer? token = some i)
    (hfits : Numeral.fitsInt64 i = true) :
    Grammar.Literal token.toList (.integer (Int64.ofInt i)) := by
  obtain ⟨hmin, hmax⟩ := Numeral.fitsInt64_iff.mp hfits
  rcases Numeral.toInt?_eq_some_iff.mp hinteger with
    ⟨n, hn, rfl⟩ | ⟨digits, n, htoken, hn, rfl⟩
  · exact .positive hn (by omega)
  · exact htoken ▸ .negative hn (by omega)

theorem literal_of_payload {token : String} {value : Payload} (hvalue : payload token = .ok value) :
    Grammar.Literal token.toList value := by
  unfold payload at hvalue
  split at hvalue
  next hword =>
    cases hvalue
    exact hword ▸ .yes
  next =>
    split at hvalue
    next hword =>
      cases hvalue
      exact hword ▸ .no
    next =>
      split at hvalue
      next hword =>
        cases hvalue
        exact hword ▸ .null
      next =>
        split at hvalue
        next i hinteger =>
          split at hvalue
          next hfits =>
            cases hvalue
            exact literal_of_integer? hinteger hfits
          next => cases hvalue
        next => split at hvalue <;> cases hvalue

theorem payload_of_literal {token : String} {value : Payload}
    (hliteral : Grammar.Literal token.toList value) : payload token = .ok value := by
  generalize hchars : token.toList = chars at hliteral
  cases hliteral with
  | yes =>
      obtain rfl : token = "true" := String.toList_injective hchars
      rfl
  | no =>
      obtain rfl : token = "false" := String.toList_injective hchars
      rfl
  | null =>
      obtain rfl : token = "null" := String.toList_injective hchars
      rfl
  | @positive _ n hn hfits =>
      exact payload_of_integer? (Numeral.toInt?_eq_some_iff.mpr (.inl ⟨n, hchars ▸ hn, rfl⟩))
        (Numeral.fitsInt64_iff.mpr (by omega))
  | @negative digits n hn hfits =>
      exact payload_of_integer?
        (Numeral.toInt?_eq_some_iff.mpr (.inr ⟨digits, n, hchars, hn, rfl⟩))
        (Numeral.fitsInt64_iff.mpr (by omega))

/-- The tokens with a value are the literals of the grammar. -/
theorem payload_eq_ok_iff {token : String} {value : Payload} :
    payload token = .ok value ↔ Grammar.Literal token.toList value :=
  ⟨literal_of_payload, payload_of_literal⟩

/-- A literal begins with a character that can begin one, and goes on with others. -/
theorem continues_of_literal {token : List Char} {value : Payload}
    (hliteral : Grammar.Literal token value) :
    ∃ c rest, token = c :: rest ∧ starts c = true ∧ ∀ other ∈ rest, continues other = true := by
  have hdigit {c : Char} (hc : c.isDigit = true) : starts c = true ∧ continues c = true := by
    simp [starts, continues, Char.isAlphanum, hc]
  cases hliteral with
  | yes => exact ⟨'t', "rue".toList, rfl, by decide, List.all_eq_true.mp (by decide)⟩
  | no => exact ⟨'f', "alse".toList, rfl, by decide, List.all_eq_true.mp (by decide)⟩
  | null => exact ⟨'n', "ull".toList, rfl, by decide, List.all_eq_true.mp (by decide)⟩
  | positive hn _ =>
      obtain ⟨hne, hdigits, _⟩ := hn
      obtain ⟨c, rest, rfl⟩ := List.exists_cons_of_ne_nil hne
      exact ⟨c, rest, rfl, (hdigit (hdigits c List.mem_cons_self)).1, fun other hother =>
        (hdigit (hdigits other (List.mem_cons_of_mem _ hother))).2⟩
  | negative hn _ =>
      exact ⟨'-', _, rfl, by decide, fun other hother => (hdigit (hn.2.1 other hother)).2⟩

end Literal

/-! ## Quoted texts -/

namespace Quoted

theorem shortEscape?_eq_some_iff {letter c : Char} :
    shortEscape? letter = some c ↔ (letter, c) ∈ shortEscapes := by
  unfold shortEscape? shortEscapes
  split <;> simp_all [eq_comm]

/-- The digits that the reader knows are the hexadecimal ones. -/
theorem hexDigit?_eq_some_iff {c : Char} {digit : Nat} :
    hexDigit? c = some digit ↔ HexDigit c digit := by
  have hdecimal : ∀ n < 58, 48 ≤ n → HexDigit (Char.ofNat n) (n - 48) := by
    unfold HexDigit
    decide
  have hlower : ∀ n < 103, 97 ≤ n → HexDigit (Char.ofNat n) (n - 97 + 10) := by
    unfold HexDigit
    decide
  have hupper : ∀ n < 71, 65 ≤ n → HexDigit (Char.ofNat n) (n - 65 + 10) := by
    unfold HexDigit
    decide
  have hrange {low high : Char} (hc : low ≤ c ∧ c ≤ high) :
      low.toNat ≤ c.toNat ∧ c.toNat < high.toNat + 1 := ⟨hc.1, Nat.lt_succ_of_le hc.2⟩
  constructor
  · intro hdigit
    unfold hexDigit? at hdigit
    rw [← Char.ofNat_toNat c]
    split at hdigit
    next hc =>
      cases hdigit
      exact hdecimal _ (hrange hc).2 (hrange hc).1
    next =>
      split at hdigit
      next hc =>
        cases hdigit
        exact hlower _ (hrange hc).2 (hrange hc).1
      next =>
        split at hdigit
        next hc =>
          cases hdigit
          exact hupper _ (hrange hc).2 (hrange hc).1
        next => cases hdigit
  · rintro ⟨hlt, rfl | rfl⟩
    · interval_cases digit <;> rfl
    · interval_cases digit <;> rfl

theorem isHighSurrogate_iff {code : Nat} : isHighSurrogate code = true ↔ High code := by
  simp only [isHighSurrogate, High, Bool.and_eq_true, decide_eq_true_eq]
  omega

theorem isLowSurrogate_iff {code : Nat} : isLowSurrogate code = true ↔ Low code := by
  simp only [isLowSurrogate, Low, Bool.and_eq_true, decide_eq_true_eq]
  omega

/-- What has been read of an escape that is not over. -/
inductive Pending : List Char → Escape → Prop
  | none : Pending [] .none
  | started : Pending ['\\'] .started
  | unicode {run : List Char} {code : Nat} : HexRun run code → run.length < 4 →
      Pending ('\\' :: 'u' :: run) (.unicode run.length code)

/-- What has been read of a quoted text that is not over. A high surrogate waits for its low
half. -/
inductive Stands : List Char → Quoted → Prop
  | free {body piece : List Char} {text : String} {escape : Escape} :
      Spells body text → Pending piece escape → Stands (body ++ piece) ⟨text, escape, none⟩
  | half {body first piece : List Char} {text : String} {high : Nat} {escape : Escape} :
      Spells body text → CodeUnit first high → High high → Pending piece escape →
      Stands (body ++ '\\' :: 'u' :: (first ++ piece)) ⟨text, escape, some high⟩

theorem Stands.start : Stands [] {} :=
  .free .nil .none

theorem Stands.free_append {body piece : List Char} {text : String} {escape : Escape} {c : Char}
    (hbody : Spells body text) (hpiece : Pending (piece ++ [c]) escape) :
    Stands (body ++ piece ++ [c]) ⟨text, escape, none⟩ := by
  rw [List.append_assoc]
  exact .free hbody hpiece

theorem Stands.half_append {body first piece : List Char} {text : String} {high : Nat}
    {escape : Escape} {c : Char} (hbody : Spells body text) (hfirst : CodeUnit first high)
    (hhigh : High high) (hpiece : Pending (piece ++ [c]) escape) :
    Stands (body ++ '\\' :: 'u' :: (first ++ piece) ++ [c]) ⟨text, escape, some high⟩ := by
  rw [List.append_assoc, List.cons_append, List.cons_append, List.append_assoc]
  exact .half hbody hfirst hhigh hpiece

/-- A text with one more character spelled. -/
theorem Stands.spelled {body piece : List Char} {text : String} {c last : Char}
    (hbody : Spells body text) (hpiece : Spelling (piece ++ [last]) c) :
    Stands (body ++ piece ++ [last]) ⟨text.push c, .none, none⟩ := by
  rw [List.append_assoc, ← List.append_nil (body ++ _)]
  exact .free (.more hbody hpiece) .none

/-- The fourth digit completes a code unit. -/
theorem codeUnit_append {run : List Char} {code digit : Nat} {c : Char} (hrun : HexRun run code)
    (hlength : run.length = 3) (hdigit : HexDigit c digit) :
    CodeUnit (run ++ [c]) (16 * code + digit) :=
  ⟨by rw [List.length_append, hlength]; rfl, .more hrun hdigit⟩

theorem pending_append {run : List Char} {code digit : Nat} {c : Char} (hrun : HexRun run code)
    (hlength : run.length + 1 < 4) (hdigit : HexDigit c digit) :
    Pending ('\\' :: 'u' :: run ++ [c]) (.unicode (run.length + 1) (16 * code + digit)) := by
  have hpending := Pending.unicode (.more hrun hdigit) (by simpa using hlength)
  rwa [List.length_append] at hpending

/-- A digit goes on with an escape. -/
theorem feed_digit {text : String} {high : Option Nat} {code digits digit : Nat} {c : Char}
    (hdigit : HexDigit c digit) :
    (⟨text, .unicode digits code, high⟩ : Quoted).feed c =
      if digits + 1 < 4 then
        .ok (.more ⟨text, .unicode (digits + 1) (16 * code + digit), high⟩)
      else
        ((⟨text, .unicode digits code, high⟩ : Quoted).pushCodeUnit (16 * code + digit)).map
          .more := by
  have hpairs : (⟨text, .unicode digits code, high⟩ : Quoted).pairs c = true := by
    cases high <;> rfl
  unfold feed
  rw [hpairs]
  simp only [Bool.not_true, Bool.false_eq_true, if_false, hexDigit?_eq_some_iff.mpr hdigit]

/-- Only digits go on with an escape. -/
theorem digit_of_feed {text : String} {high : Option Nat} {code digits : Nat} {c : Char}
    {step : Step} (hfeed : (⟨text, .unicode digits code, high⟩ : Quoted).feed c = .ok step) :
    ∃ digit, HexDigit c digit := by
  unfold feed at hfeed
  split at hfeed
  next => cases hfeed
  next =>
    simp only at hfeed
    split at hfeed
    next => cases hfeed
    next digit hdigit => exact ⟨digit, hexDigit?_eq_some_iff.mp hdigit⟩

/-- Outside of surrogate pairs, what has been read goes on being the beginning of a spelling. -/
theorem Stands.more_free {body piece : List Char} {text : String} {escape : Escape} {next : Quoted}
    {c : Char} (hbody : Spells body text) (hpending : Pending piece escape)
    (hfeed : (⟨text, escape, none⟩ : Quoted).feed c = .ok (.more next)) :
    Stands (body ++ piece ++ [c]) next := by
  cases hpending with
  | none =>
      simp only [feed, pairs, Bool.not_true, Bool.false_eq_true, if_false] at hfeed
      split at hfeed
      next => cases hfeed
      next hquote =>
        split at hfeed
        next hslash =>
          cases hfeed
          exact .free_append hbody (hslash ▸ .started)
        next hslash =>
          split at hfeed
          next => cases hfeed
          next hbreak =>
            cases hfeed
            rw [not_or] at hbreak
            exact .spelled hbody (.raw hquote hslash hbreak.1 hbreak.2)
  | started =>
      simp only [feed, pairs, Bool.not_true, Bool.false_eq_true, if_false] at hfeed
      split at hfeed
      next hu =>
        cases hfeed
        exact .free_append hbody (hu ▸ .unicode .nil (by decide))
      next =>
        split at hfeed
        next meant hshort =>
          cases hfeed
          exact .spelled hbody (.short (shortEscape?_eq_some_iff.mp hshort))
        next => cases hfeed
  | @unicode run code hrun hlength =>
      obtain ⟨digit, hdigit⟩ := digit_of_feed hfeed
      rw [feed_digit hdigit] at hfeed
      split at hfeed
      next hshort =>
        cases hfeed
        exact .free_append hbody (pending_append hrun hshort hdigit)
      next hlong =>
        have hunit := codeUnit_append hrun (by omega) hdigit
        simp only [pushCodeUnit] at hfeed
        split at hfeed
        next hhigh =>
          -- the first half of a pair spells nothing by itself
          cases hfeed
          rw [isHighSurrogate_iff] at hhigh
          simpa using Stands.half hbody hunit hhigh .none
        next hhigh =>
          split at hfeed
          next => cases hfeed
          next hlow =>
            cases hfeed
            rw [isHighSurrogate_iff] at hhigh
            rw [isLowSurrogate_iff] at hlow
            exact .spelled hbody (.unit hunit hhigh hlow)

/-- Behind the first half of a surrogate pair nothing but the second half goes on. -/
theorem Stands.more_half {body first piece : List Char} {text : String} {high : Nat}
    {escape : Escape} {next : Quoted} {c : Char} (hbody : Spells body text)
    (hfirst : CodeUnit first high) (hhigh : High high) (hpending : Pending piece escape)
    (hfeed : (⟨text, escape, some high⟩ : Quoted).feed c = .ok (.more next)) :
    Stands (body ++ '\\' :: 'u' :: (first ++ piece) ++ [c]) next := by
  cases hpending with
  | none =>
      simp only [feed, pairs] at hfeed
      split at hfeed
      next => cases hfeed
      next hslash =>
        obtain rfl : c = '\\' := by simpa using hslash
        cases hfeed
        exact .half_append hbody hfirst hhigh .started
  | started =>
      simp only [feed, pairs] at hfeed
      split at hfeed
      next => cases hfeed
      next hu =>
        obtain rfl : c = 'u' := by simpa using hu
        cases hfeed
        exact .half_append hbody hfirst hhigh (.unicode .nil (by decide))
  | @unicode run code hrun hlength =>
      obtain ⟨digit, hdigit⟩ := digit_of_feed hfeed
      rw [feed_digit hdigit] at hfeed
      split at hfeed
      next hshort =>
        cases hfeed
        exact .half_append hbody hfirst hhigh (pending_append hrun hshort hdigit)
      next hlong =>
        have hunit := codeUnit_append hrun (by omega) hdigit
        simp only [pushCodeUnit] at hfeed
        split at hfeed
        next hlow =>
          cases hfeed
          rw [isLowSurrogate_iff] at hlow
          have hpair : Spelling _ (pairedChar high (16 * code + digit)) :=
            .pair hfirst hhigh hunit hlow
          simpa using Stands.free (.more hbody hpair) .none
        next => cases hfeed

/-- What has been read goes on being the beginning of a spelling. -/
theorem Stands.more {raw : List Char} {body next : Quoted} {c : Char} (hstands : Stands raw body)
    (hfeed : body.feed c = .ok (.more next)) : Stands (raw ++ [c]) next := by
  cases hstands with
  | free hbody hpending => exact more_free hbody hpending hfeed
  | half hbody hfirst hhigh hpending => exact more_half hbody hfirst hhigh hpending hfeed

/-- A quoted text ends with a quote behind a spelling. -/
theorem Stands.closed {raw : List Char} {body : Quoted} {c : Char} {text : String}
    (hstands : Stands raw body) (hfeed : body.feed c = .ok (.closed text)) :
    c = '"' ∧ Spells raw text := by
  unfold feed at hfeed
  split at hfeed
  next => cases hfeed
  next hpairs =>
    split at hfeed
    next hescape =>
      split at hfeed
      next hquote =>
        cases hfeed
        cases hstands with
        | free hbody hpending =>
            obtain rfl := hescape
            cases hpending
            exact ⟨hquote, by rwa [List.append_nil]⟩
        | half hbody hfirst hhigh hpending =>
            obtain rfl := hescape
            simp [pairs, hquote] at hpairs
      next => split at hfeed <;> (try split at hfeed) <;> cases hfeed
    next =>
      split at hfeed
      next => cases hfeed
      next => split at hfeed <;> cases hfeed
    next =>
      split at hfeed
      next => cases hfeed
      next =>
        split at hfeed
        next => cases hfeed
        next =>
          simp only [Except.map] at hfeed
          split at hfeed <;> cases hfeed

/-! ### Reading a spelling -/

/-- The reader takes in a part of a quoted text, character by character. -/
inductive Reads : Quoted → List Char → Quoted → Prop
  | nil (body : Quoted) : Reads body [] body
  | more {body next last : Quoted} {c : Char} {rest : List Char} :
      body.feed c = .ok (.more next) → Reads next rest last → Reads body (c :: rest) last

theorem Reads.single {body next : Quoted} {c : Char} (hfeed : body.feed c = .ok (.more next)) :
    Reads body [c] next :=
  .more hfeed (.nil next)

theorem Reads.append {body middle last : Quoted} {first second : List Char}
    (hfirst : Reads body first middle) (hsecond : Reads middle second last) :
    Reads body (first ++ second) last := by
  induction hfirst with
  | nil body => exact hsecond
  | more hfeed _ ih => exact .more hfeed (ih hsecond)

variable {text : String} {high : Option Nat} {run : List Char} {code : Nat}

theorem reads_of_hexRun (hrun : HexRun run code) (hlength : run.length < 4) :
    Reads ⟨text, .unicode 0 0, high⟩ run ⟨text, .unicode run.length code, high⟩ := by
  induction hrun with
  | nil => exact .nil _
  | @more run code c digit _ hdigit ih =>
      rw [List.length_append] at hlength ⊢
      refine (ih (by omega)).append (.single ?_)
      rw [feed_digit hdigit]
      exact if_pos hlength

theorem reads_of_codeUnit {next : Quoted} (hunit : CodeUnit run code)
    (hpush : ∀ escape, (⟨text, escape, high⟩ : Quoted).pushCodeUnit code = .ok next) :
    Reads ⟨text, .unicode 0 0, high⟩ run next := by
  obtain ⟨hlength, hrun⟩ := hunit
  cases hrun with
  | nil => cases hlength
  | @more run code c digit hrun hdigit =>
      rw [List.length_append, List.length_singleton] at hlength
      refine (reads_of_hexRun hrun (by omega)).append (.single ?_)
      rw [feed_digit hdigit, if_neg (by omega), hpush]
      rfl

theorem reads_of_spelling {piece : List Char} {c : Char} (hpiece : Spelling piece c)
    (text : String) : Reads ⟨text, .none, none⟩ piece ⟨text.push c, .none, none⟩ := by
  cases hpiece with
  | raw hquote hslash hfeed hreturn =>
      refine .single ?_
      unfold feed
      simp only [pairs, Bool.not_true, Bool.false_eq_true, if_false, hquote, hslash, hfeed, hreturn,
        or_self]
  | @short letter _ hshort =>
      refine .more rfl (.single ?_)
      have hu : letter ≠ 'u' := by
        rintro rfl
        simp [shortEscapes] at hshort
      unfold feed
      simp only [pairs, Bool.not_true, Bool.false_eq_true, if_false, hu,
        shortEscape?_eq_some_iff.mpr hshort]
  | unit hunit hhigh hlow =>
      refine .more rfl (.more rfl (reads_of_codeUnit hunit fun escape => ?_))
      rw [← isHighSurrogate_iff] at hhigh
      rw [← isLowSurrogate_iff] at hlow
      simp only [pushCodeUnit, hhigh, hlow, Bool.false_eq_true, if_false]
  | @pair first second high low hfirst hhigh hsecond hlow =>
      rw [← isHighSurrogate_iff] at hhigh
      rw [← isLowSurrogate_iff] at hlow
      have hhalf : Reads ⟨text, .unicode 0 0, none⟩ first ⟨text, .none, some high⟩ :=
        reads_of_codeUnit hfirst fun escape => if_pos hhigh
      have hwhole : Reads ⟨text, .unicode 0 0, some high⟩ second
          ⟨text.push (pairedChar high low), .none, none⟩ :=
        reads_of_codeUnit hsecond fun escape => if_pos hlow
      exact .more rfl (.more rfl (hhalf.append (.more rfl (.more rfl hwhole))))

/-- Every spelling is read to its end. -/
theorem reads_of_spells {body : List Char} {text : String} (hbody : Spells body text) :
    Reads {} body ⟨text, .none, none⟩ := by
  induction hbody with
  | nil => exact .nil _
  | more _ hpiece ih => exact ih.append (reads_of_spelling hpiece _)

theorem feed_quote (text : String) :
    (⟨text, .none, none⟩ : Quoted).feed '"' = .ok (.closed text) := rfl

end Quoted

end KeyedTree
