import KeyedTree.Json.Bridge
import KeyedTree.Proofs.Grammar.Rendering

/-! # Compact texts of JSON values

How JSON values are written without blanks. The texts of fractions are left open but for their
characters: nothing here depends on how many digits a writer shows. The writer of this library
writes such texts.
-/

namespace KeyedTree

open Grammar

/-! ## Numbers -/

/-- The characters of numbers with a fraction. -/
def Numeric (c : Char) : Prop :=
  c.isDigit = true ∨ c = '.' ∨ c = 'e' ∨ c = '+' ∨ c = '-'

/-- What the text of a number with a fraction looks like, whoever writes it. -/
structure FractionText (text : List Char) : Prop where
  head : ∃ c rest, text = c :: rest ∧ (c = '-' ∨ c.isDigit = true)
  only : ∀ c ∈ text, Numeric c
  marked : '.' ∈ text ∨ 'e' ∈ text

/-- A text that the reader takes for one literal. -/
structure Run (text : List Char) : Prop where
  head : ∃ c rest, text = c :: rest ∧ Literal.starts c = true
  all : ∀ c ∈ text, Literal.continues c = true

theorem Literal.starts_of_isDigit {c : Char} (hdigit : c.isDigit = true) :
    Literal.starts c = true := by
  simp [Literal.starts, Char.isAlphanum, hdigit]

theorem Literal.continues_of_isDigit {c : Char} (hdigit : c.isDigit = true) :
    Literal.continues c = true := by
  simp [Literal.continues, Char.isAlphanum, hdigit]

theorem FractionText.run {text : List Char} (htext : FractionText text) : Run text := by
  obtain ⟨c, rest, rfl, hc⟩ := htext.head
  refine ⟨⟨c, rest, rfl, ?_⟩, ?_⟩
  · rcases hc with rfl | hdigit
    · rfl
    · exact Literal.starts_of_isDigit hdigit
  · intro other hother
    rcases htext.only other hother with hdigit | rfl | rfl | rfl | rfl
    · exact Literal.continues_of_isDigit hdigit
    · rfl
    · rfl
    · rfl
    · rfl

/-- A number with a fraction is no literal. -/
theorem FractionText.not_literal {text : List Char} (htext : FractionText text)
    (payload : Payload) :
    ¬ Grammar.Literal text payload := by
  intro hliteral
  have hdigits : ∀ {digits : List Char} {n : Nat}, Decimal digits n →
      '.' ∉ digits ∧ 'e' ∉ digits := by
    intro digits n hdecimal
    constructor <;> intro hmem <;> exact absurd (hdecimal.2.1 _ hmem) (by decide)
  cases hliteral with
  | yes => exact absurd (htext.only 't' (by decide)) (by simp [Numeric])
  | no => exact absurd (htext.only 'f' (by decide)) (by simp [Numeric])
  | null => exact absurd (htext.only 'n' (by decide)) (by simp [Numeric])
  | positive hdecimal _ =>
      obtain ⟨hpoint, hmark⟩ := hdigits hdecimal
      exact htext.marked.elim hpoint hmark
  | negative hdecimal _ =>
      obtain ⟨hpoint, hmark⟩ := hdigits hdecimal
      rcases htext.marked with hmem | hmem
      · exact hpoint ((List.mem_cons.mp hmem).resolve_left (by decide))
      · exact hmark ((List.mem_cons.mp hmem).resolve_left (by decide))

namespace Numeral

theorem isDigit_of_mem_ofNat {n : Nat} {c : Char} (hc : c ∈ ofNat n) : c.isDigit = true :=
  Nat.isDigit_of_mem_toDigits (by decide) (by decide) hc

theorem run_ofNat (n : Nat) : Run (ofNat n) := by
  refine ⟨?_, fun c hc => Literal.continues_of_isDigit (isDigit_of_mem_ofNat hc)⟩
  obtain ⟨c, rest, htext⟩ :=
    List.exists_cons_of_ne_nil (Nat.toDigits_ne_nil : Nat.toDigits 10 n ≠ [])
  have hc : c ∈ ofNat n := by
    rw [ofNat, htext]
    exact List.mem_cons_self
  exact ⟨c, rest, htext, Literal.starts_of_isDigit (isDigit_of_mem_ofNat hc)⟩

theorem run_ofInt (n : Int) : Run (ofInt n) := by
  cases n with
  | ofNat n => exact run_ofNat n
  | negSucc n =>
      refine ⟨⟨'-', _, rfl, rfl⟩, ?_⟩
      intro c hc
      rcases List.mem_cons.mp hc with rfl | hc
      · rfl
      · exact (run_ofNat (n + 1)).all c hc

/-- The numeral of an integer that does not fit into 64 bits is no literal. -/
theorem not_literal_ofInt {n : Int} (hfits : fitsInt64 n = false) (payload : Payload) :
    ¬ Grammar.Literal (ofInt n) payload := by
  intro hliteral
  rw [← String.toList_ofList (l := ofInt n)] at hliteral
  have hpayload := Literal.payload_of_literal hliteral
  have hinteger : Literal.integer? (String.ofList (ofInt n)) = some n := by
    rw [Literal.integer?, String.toList_ofList, toInt?_ofInt]
  simp only [Literal.payload, hinteger, hfits, Bool.false_eq_true, if_false] at hpayload
  split at hpayload
  next hword =>
    rw [hword] at hinteger
    cases hinteger
  next =>
    split at hpayload
    next hword =>
      rw [hword] at hinteger
      cases hinteger
    next =>
      split at hpayload
      next hword =>
        rw [hword] at hinteger
        cases hinteger
      next => cases hpayload

end Numeral

/-! ### Fractions -/

namespace Fraction

theorem numeric_of_mem_ofInt {n : Int} : ∀ c ∈ Numeral.ofInt n, Numeric c := by
  cases n with
  | ofNat n => exact fun c hc => .inl (Numeral.isDigit_of_mem_ofNat hc)
  | negSucc n =>
      refine List.forall_mem_cons.mpr ⟨by simp [Numeric], ?_⟩
      exact fun c hc => .inl (Numeral.isDigit_of_mem_ofNat hc)

theorem numeric_of_mem_zeros {n : Nat} : ∀ c ∈ List.replicate n '0', Numeric c := by
  intro c hc
  rw [List.eq_of_mem_replicate hc]
  exact .inl rfl

/-- What the text of a fraction looks like without its sign. -/
structure UnsignedText (text : List Char) : Prop where
  head : ∃ c rest, text = c :: rest ∧ c.isDigit = true
  only : ∀ c ∈ text, Numeric c
  marked : '.' ∈ text ∨ 'e' ∈ text

theorem unsignedText_magnitudeText (digits : Nat) (exponent : Int) :
    UnsignedText (magnitudeText digits exponent) := by
  have hdigits : ∀ c ∈ Numeral.ofNat digits, c.isDigit = true := fun c hc =>
    Numeral.isDigit_of_mem_ofNat hc
  obtain ⟨first, rest, hshown⟩ := List.exists_cons_of_ne_nil
    (Nat.toDigits_ne_nil : Nat.toDigits 10 digits ≠ [])
  have hshown : Numeral.ofNat digits = first :: rest := hshown
  rw [hshown] at hdigits
  obtain ⟨hfirst, hrest⟩ := List.forall_mem_cons.mp hdigits
  have hnumeric : ∀ c ∈ first :: rest, Numeric c := fun c hc => .inl (hdigits c hc)
  have hpoint : Numeric '.' := by simp [Numeric]
  have hzero : Numeric '0' := .inl rfl
  have hmark : Numeric 'e' := by simp [Numeric]
  have hplus : ∀ c ∈ ['+'], Numeric c := by simp [Numeric]
  simp only [magnitudeText, hshown]
  split
  next =>
    refine ⟨⟨first, _, rfl, hfirst⟩, ?_, .inl (by simp)⟩
    refine List.forall_mem_append.mpr
      ⟨List.forall_mem_append.mpr ⟨hnumeric, numeric_of_mem_zeros⟩, ?_⟩
    exact List.forall_mem_cons.mpr ⟨hpoint, List.forall_mem_singleton.mpr hzero⟩
  next =>
    split
    next hplace =>
      -- the point stands behind the first digit at least
      obtain ⟨before, hbefore⟩ := Nat.exists_eq_succ_of_ne_zero
        (by omega : (((first :: rest).length : Int) + exponent).toNat ≠ 0)
      rw [hbefore]
      refine ⟨⟨first, _, rfl, hfirst⟩, ?_, .inl (by simp)⟩
      refine List.forall_mem_append.mpr ⟨fun c hc => hnumeric c (List.mem_of_mem_take hc), ?_⟩
      exact List.forall_mem_cons.mpr ⟨hpoint, fun c hc => hnumeric c (List.mem_of_mem_drop hc)⟩
    next =>
      split
      next =>
        refine ⟨⟨'0', _, rfl, rfl⟩, ?_, .inl (by simp)⟩
        refine List.forall_mem_cons.mpr ⟨hzero, List.forall_mem_cons.mpr ⟨hpoint, ?_⟩⟩
        exact List.forall_mem_append.mpr ⟨numeric_of_mem_zeros, hnumeric⟩
      next =>
        have hpower : ∀ sign : List Char, (∀ c ∈ sign, Numeric c) → ∀ n,
            ∀ c ∈ 'e' :: (sign ++ Numeral.ofInt n), Numeric c := fun sign hsign n =>
          List.forall_mem_cons.mpr ⟨hmark, List.forall_mem_append.mpr ⟨hsign, numeric_of_mem_ofInt⟩⟩
        have hsign : ∀ c ∈ (if 0 < ((first :: rest).length : Int) + exponent then ['+'] else []),
            Numeric c := by
          split
          next => exact hplus
          next => exact nofun
        cases rest with
        | nil =>
            refine ⟨⟨first, _, rfl, hfirst⟩, ?_, .inr (by simp)⟩
            exact List.forall_mem_cons.mpr ⟨.inl hfirst, hpower _ hsign _⟩
        | cons second rest =>
            refine ⟨⟨first, _, rfl, hfirst⟩, ?_, .inl (by simp)⟩
            refine List.forall_mem_append.mpr ⟨?_, hpower _ hsign _⟩
            refine List.forall_mem_cons.mpr ⟨.inl hfirst, List.forall_mem_cons.mpr ⟨hpoint, ?_⟩⟩
            exact fun c hc => .inl (hrest c hc)

/-- Fractions are written as such. -/
theorem fractionText_text (fraction : Fraction) : FractionText fraction.text := by
  obtain ⟨⟨c, rest, hhead, hc⟩, honly, hmarked⟩ :=
    unsignedText_magnitudeText fraction.digits fraction.exponent
  unfold text
  cases fraction.negative with
  | false => exact ⟨⟨c, rest, hhead, .inr hc⟩, honly, hmarked⟩
  | true =>
      refine ⟨⟨'-', _, rfl, .inl rfl⟩, ?_, ?_⟩
      · exact List.forall_mem_cons.mpr ⟨by simp [Numeric], honly⟩
      · exact hmarked.imp (List.mem_cons_of_mem _) (List.mem_cons_of_mem _)

end Fraction

/-! ## Strings -/

namespace Json

/-- Four digits spell the code of a character below the blank. -/
theorem codeUnit_control {n : Nat} (hn : n < 0x20) :
    CodeUnit ['0', '0', Nat.digitChar (n / 16), Nat.digitChar (n % 16)] n := by
  have hzero : HexDigit '0' 0 := ⟨by decide, .inl rfl⟩
  have hhigh : HexDigit (Nat.digitChar (n / 16)) (n / 16) := ⟨by omega, .inl rfl⟩
  have hlow : HexDigit (Nat.digitChar (n % 16)) (n % 16) := ⟨by omega, .inl rfl⟩
  have hrun := (((HexRun.nil.more hzero).more hzero).more hhigh).more hlow
  have hcode : 16 * (16 * (16 * (16 * 0 + 0) + 0) + n / 16) + n % 16 = n := by omega
  rw [hcode] at hrun
  exact ⟨rfl, hrun⟩

/-- Every character is written between quotes in a way that the reader knows. -/
theorem spelling_escape (c : Char) : Spelling (escape c) c := by
  unfold escape
  split
  next => exact .short (by decide)
  next => exact .short (by decide)
  next => exact .short (by decide)
  next => exact .short (by decide)
  next => exact .short (by decide)
  next => exact .short (by decide)
  next => exact .short (by decide)
  next hquote hslash _ _ hfeed hreturn _ =>
    split
    next hcontrol =>
      have hhigh : ¬ High c.toNat := fun h => by have := h.1; omega
      have hlow : ¬ Low c.toNat := fun h => by have := h.1; omega
      have hspelling := Spelling.unit (codeUnit_control hcontrol) hhigh hlow
      rwa [Char.ofNat_toNat] at hspelling
    next => exact .raw hquote hslash hfeed hreturn

theorem spells_escape (text : String) : Spells (text.toList.flatMap escape) text := by
  have hspells : Spells (text.toList.flatMap escape) (String.ofList text.toList) :=
    spells_flatMap fun c _ => spelling_escape c
  rwa [String.ofList_toList] at hspells

/-! ## Values -/

mutual

/-- A text is a compact text of a value. -/
inductive Written : Json → List Char → Prop
  | null : Written .null "null".toList
  | bool (value : Bool) : Written (.bool value) (if value then "true" else "false").toList
  | integer (value : Int) : Written (.number (.integer value)) (Numeral.ofInt value)
  | fraction (value : Fraction) {text : List Char} :
      FractionText text → Written (.number (.fraction value)) text
  | string (value : String) : Written (.string value) (quote value)
  | emptyArray : Written (.array []) ['[', ']']
  | array {items : List Json} {body : List Char} :
      WrittenItems items body → Written (.array items) ('[' :: (body ++ [']']))
  | emptyObject : Written (.object []) ['{', '}']
  | object {members : List (String × Json)} {body : List Char} :
      WrittenMembers members body → Written (.object members) ('{' :: (body ++ ['}']))

/-- A text is a compact text of items, with commas between them. -/
inductive WrittenItems : List Json → List Char → Prop
  | one {item : Json} {text : List Char} : Written item text → WrittenItems [item] text
  | more {item : Json} {rest : List Json} {text body : List Char} :
      Written item text → WrittenItems rest body → WrittenItems (item :: rest) (text ++ ',' :: body)

/-- A text is a compact text of members, with commas between them. -/
inductive WrittenMembers : List (String × Json) → List Char → Prop
  | one (key : String) {value : Json} {text : List Char} :
      Written value text → WrittenMembers [(key, value)] (quote key ++ ':' :: text)
  | more (key : String) {value : Json} {rest : List (String × Json)} {text body : List Char} :
      Written value text → WrittenMembers rest body →
      WrittenMembers ((key, value) :: rest) (quote key ++ ':' :: (text ++ ',' :: body))

end

mutual

/-- What is written for a value is a compact text of it. -/
theorem written_chars : ∀ json : Json, json.Written json.chars
  | .null => .null
  | .bool value => .bool value
  | .number (.integer value) => .integer value
  | .number (.fraction value) => .fraction value value.fractionText_text
  | .string value => .string value
  | .array [] => .emptyArray
  | .array (item :: rest) =>
      .array (writtenItems_itemChars (item :: rest) (List.cons_ne_nil item rest))
  | .object [] => .emptyObject
  | .object (member :: rest) =>
      .object (writtenMembers_memberChars (member :: rest) (List.cons_ne_nil member rest))

theorem writtenItems_itemChars :
    ∀ items : List Json, items ≠ [] → WrittenItems items (itemChars items)
  | [], hne => absurd rfl hne
  | [item], _ => .one (written_chars item)
  | item :: next :: more, _ =>
      .more (written_chars item)
        (writtenItems_itemChars (next :: more) (List.cons_ne_nil next more))

theorem writtenMembers_memberChars :
    ∀ members : List (String × Json), members ≠ [] → WrittenMembers members (memberChars members)
  | [], hne => absurd rfl hne
  | [(key, value)], _ => .one key (written_chars value)
  | (key, value) :: next :: more, _ => by
      have hmore := WrittenMembers.more key (written_chars value)
        (writtenMembers_memberChars (next :: more) (List.cons_ne_nil next more))
      simpa [memberChars] using hmore

end

end Json

end KeyedTree
