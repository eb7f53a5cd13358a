import Mathlib.Data.List.Nodup
import KeyedTree.Proofs.Grammar.Containers
import KeyedTree.Proofs.Grammar.Tokens

/-! # What has been read is derivable

Whatever a reader has read so far is the beginning of a document: blanks, then the beginnings of the
containers around the value that is being read, then the beginning of that value. Every character
that the reader takes in keeps this so. Hence a text that is read to its end is a document of the
grammar.
-/

namespace KeyedTree

open Grammar

/-! ## Blanks -/

theorem isBlank_iff {c : Char} : isBlank c = true ↔ c = ' ' ∨ c = '\t' ∨ c = '\n' ∨ c = '\r' := by
  simp [isBlank, or_assoc]

namespace Grammar

theorem Blanks.nil : Blanks [] := by
  intro c hc
  exact absurd hc List.not_mem_nil

theorem Blanks.append {gap : List Char} (hgap : Blanks gap) {c : Char} (hc : isBlank c = true) :
    Blanks (gap ++ [c]) := by
  intro other hother
  rcases List.mem_append.mp hother with hgap' | hc'
  · exact hgap other hgap'
  · exact List.mem_singleton.mp hc' ▸ isBlank_iff.mp hc

/-- Blanks behind a member belong to it. -/
theorem Member.append {text : List Char} {member : Tree} (hmember : Member text member) {c : Char}
    (hc : isBlank c = true) : Member (text ++ [c]) member := by
  cases hmember with
  | mk hgap₁ hbody hkey hgap₂ hgap₃ hvalue hgap₄ =>
      have hlonger := Member.mk hgap₁ hbody hkey hgap₂ hgap₃ hvalue (hgap₄.append hc)
      simpa using hlonger

theorem Members.append {body : List Char} {members : List Tree} (hmembers : Members body members)
    {c : Char} (hc : isBlank c = true) : Members (body ++ [c]) members := by
  cases hmembers with
  | one hmember => exact .one (hmember.append hc)
  | more hmembers hmember =>
      have hlonger := Members.more hmembers (hmember.append hc)
      simpa using hlonger

/-- Blanks behind an element belong to it. -/
theorem Element.append {text : List Char} {element : Tree} (helement : Element text element)
    {c : Char} (hc : isBlank c = true) : Element (text ++ [c]) element := by
  cases helement with
  | mk hgap₁ hvalue hgap₂ =>
      have hlonger := Element.mk hgap₁ hvalue (hgap₂.append hc)
      simpa using hlonger

theorem Elements.append {body : List Char} {elements : List Tree}
    (helements : Elements body elements) {c : Char} (hc : isBlank c = true) :
    Elements (body ++ [c]) elements := by
  cases helements with
  | one helement => exact .one (helement.append hc)
  | more helements helement =>
      have hlonger := Elements.more helements (helement.append hc)
      simpa using hlonger

/-- What stands in front of a member: nothing, or other members with a comma. -/
inductive Before : List Char → List Tree → Prop
  | first : Before [] []
  | next {body : List Char} {members : List Tree} :
      Members body members → Before (body ++ [',']) members

theorem Before.member {before text : List Char} {members : List Tree} {member : Tree}
    (hbefore : Before before members) (hmember : Member text member) :
    Members (before ++ text) (members ++ [member]) := by
  cases hbefore with
  | first => exact .one hmember
  | next hmembers =>
      rw [List.append_assoc]
      exact .more hmembers hmember

/-- What stands in front of an element: nothing, or other elements with a comma. -/
inductive BeforeElement : List Char → List Tree → Prop
  | first : BeforeElement [] []
  | next {body : List Char} {elements : List Tree} :
      Elements body elements → BeforeElement (body ++ [',']) elements

theorem BeforeElement.element {before text : List Char} {elements : List Tree} {element : Tree}
    (hbefore : BeforeElement before elements) (helement : Element text element) :
    Elements (before ++ text) (elements ++ [element]) := by
  cases hbefore with
  | first => exact .one helement
  | next helements =>
      rw [List.append_assoc]
      exact .more helements helement

end Grammar

/-! ## What has been read -/

/-- What has been read of a value that is not over. -/
inductive Frame.Stands : List Char → Frame → Prop
  | keyOrClose {gap : List Char} :
      Blanks gap → Stands ('{' :: gap) (.object (objectOf []) .keyOrClose)
  | nextKey {body gap : List Char} {members : List Tree} :
      Members body members → (members.map Tree.key).Nodup → Blanks gap →
      Stands ('{' :: (body ++ ',' :: gap)) (.object (objectOf members) .nextKey)
  | key {before gap raw : List Char} {members : List Tree} {body : Quoted} :
      Before before members → (members.map Tree.key).Nodup → Blanks gap → Quoted.Stands raw body →
      Stands ('{' :: (before ++ (gap ++ '"' :: raw))) (.object (objectOf members) (.key body))
  | colon {before gap body gap₂ : List Char} {members : List Tree} {key : String} :
      Before before members → (members.map Tree.key).Nodup → Blanks gap → Spells body key →
      key ≠ "" → Blanks gap₂ →
      Stands ('{' :: (before ++ (gap ++ '"' :: (body ++ '"' :: gap₂))))
        (.object (objectOf members) (.colon key))
  | value {before gap body gap₂ gap₃ : List Char} {members : List Tree} {key : String} :
      Before before members → (members.map Tree.key).Nodup → Blanks gap → Spells body key →
      key ≠ "" → Blanks gap₂ → Blanks gap₃ →
      Stands ('{' :: (before ++ (gap ++ '"' :: (body ++ '"' :: (gap₂ ++ ':' :: gap₃)))))
        (.object (objectOf members) (.value key))
  | memberEnd {body : List Char} {members : List Tree} :
      Members body members → (members.map Tree.key).Nodup →
      Stands ('{' :: body) (.object (objectOf members) .commaOrClose)
  | valueOrClose {gap : List Char} :
      Blanks gap → Stands ('[' :: gap) (.array (arrayOf []) .valueOrClose)
  | nextValue {body gap : List Char} {elements : List Tree} :
      Elements body elements → Blanks gap →
      Stands ('[' :: (body ++ ',' :: gap)) (.array (arrayOf elements) .value)
  | elementEnd {body : List Char} {elements : List Tree} :
      Elements body elements → Stands ('[' :: body) (.array (arrayOf elements) .commaOrClose)
  | string {raw : List Char} {body : Quoted} :
      Quoted.Stands raw body → Stands ('"' :: raw) (.string body)
  | literal (start : Cursor) (token : String) : Stands token.toList (.literal start token)

/-- What has been read of a container around a value. -/
inductive Hole.Stands : List Char → Hole → Prop
  | member {before gap body gap₂ gap₃ : List Char} {members : List Tree} {key : String} :
      Before before members → (members.map Tree.key).Nodup → Blanks gap → Spells body key →
      key ≠ "" → Blanks gap₂ → Blanks gap₃ →
      Stands ('{' :: (before ++ (gap ++ '"' :: (body ++ '"' :: (gap₂ ++ ':' :: gap₃)))))
        (.member (objectOf members) key)
  | element {before gap : List Char} {elements : List Tree} :
      BeforeElement before elements → Blanks gap →
      Stands ('[' :: (before ++ gap)) (.element (arrayOf elements))

/-- What has been read around a value, the outermost container first. -/
inductive Around : List Char → List Hole → Prop
  | nil {gap : List Char} : Blanks gap → Around gap []
  | cons {outer text : List Char} {holes : List Hole} {hole : Hole} :
      Around outer holes → hole.Stands text → Around (outer ++ text) (hole :: holes)

/-- What has been read of a document. -/
inductive Progress.Stands : List Char → Progress → Prop
  | fresh {gap : List Char} : Blanks gap → Stands gap .fresh
  | within {outer text : List Char} {top : Frame} {around : List Hole} :
      Around outer around → top.Stands text → Stands (outer ++ text) (.within top around)
  | done {text : List Char} {value : Tree} : Document text value → Stands text (.done value)

/-- What a character makes of what has been read of a value. -/
def Turn.Stands (text : List Char) (c : Char) : Turn → Prop
  | .stay frame => frame.Stands (text ++ [c])
  | .descend hole frame => hole.Stands text ∧ frame.Stands [c]
  | .close value => Value (text ++ [c]) value
  | .closeBefore value => Value text value

/-! ## Characters of a value -/

namespace Frame

variable {text : List Char} {c : Char} {place : Cursor} {node : Tree} {turn : Turn}

/-- A value begins with its first character. -/
theorem stands_of_start? {frame : Frame} (hstart : start? c place false = some frame) :
    frame.Stands [c] := by
  unfold start? at hstart
  split at hstart
  next hobject =>
    cases hstart
    exact hobject ▸ .keyOrClose .nil
  next =>
    split at hstart
    next harray =>
      cases hstart
      exact harray ▸ .valueOrClose .nil
    next =>
      split at hstart
      next hquote =>
        cases hstart
        exact hquote ▸ .string .start
      next =>
        split at hstart
        next =>
          cases hstart
          exact String.toList_singleton c ▸ .literal place (String.singleton c)
        next => cases hstart

/-- A literal that has a value is one of the grammar. -/
theorem value_of_literalValue {start : Cursor} {token : String} {value : Tree}
    (hvalue : literalValue start token = .ok value) : Value token.toList value := by
  unfold literalValue at hvalue
  split at hvalue
  next payload hpayload =>
    cases hvalue
    exact .literal (Literal.payload_eq_ok_iff.mp hpayload)
  next => cases hvalue

/-- A key of an object begins. -/
theorem stands_key {before gap : List Char} {members : List Tree} (hbefore : Before before members)
    (hkeys : (members.map Tree.key).Nodup) (hgap : Blanks gap) :
    Stands ('{' :: (before ++ gap) ++ ['"']) (.object (objectOf members) (.key {})) := by
  simpa using Stands.key hbefore hkeys hgap .start

/-- Between its tokens an object skips blanks. -/
theorem feedObject_blank {phase : ObjectPhase} (hphase : ∀ body, phase ≠ .key body)
    (hc : isBlank c = true) :
    Frame.feedObject node phase c place = .ok (.stay (.object node phase)) := by
  have hother : c ≠ ':' ∧ c ≠ ',' ∧ c ≠ '}' := by
    rcases isBlank_iff.mp hc with rfl | rfl | rfl | rfl <;> decide
  obtain ⟨hcolon, hcomma, hclose⟩ := hother
  cases phase with
  | key body => exact absurd rfl (hphase body)
  | _ => simp only [Frame.feedObject, hc, hcolon, hcomma, hclose, if_true, if_false]

theorem feedArray_blank (phase : ArrayPhase) (hc : isBlank c = true) :
    Frame.feedArray node phase c place = .ok (.stay (.array node phase)) := by
  have hother : c ≠ ',' ∧ c ≠ ']' := by
    rcases isBlank_iff.mp hc with rfl | rfl | rfl | rfl <;> decide
  obtain ⟨hcomma, hclose⟩ := hother
  cases phase <;> simp only [Frame.feedArray, hc, hcomma, hclose, if_true, if_false]

/-- A blank between the tokens of an object belongs to what has been read of it. -/
theorem Stands.object_blank {phase : ObjectPhase} (hstands : Stands text (.object node phase))
    (hphase : ∀ body, phase ≠ .key body) (hc : isBlank c = true) :
    Stands (text ++ [c]) (.object node phase) := by
  cases hstands with
  | keyOrClose hgap => exact .keyOrClose (hgap.append hc)
  | nextKey hmembers hkeys hgap =>
      have hlonger := Stands.nextKey hmembers hkeys (hgap.append hc)
      simpa using hlonger
  | key => exact absurd rfl (hphase _)
  | colon hbefore hkeys hgap hspells hempty hgap₂ =>
      have hlonger := Stands.colon hbefore hkeys hgap hspells hempty (hgap₂.append hc)
      simpa using hlonger
  | value hbefore hkeys hgap hspells hempty hgap₂ hgap₃ =>
      have hlonger := Stands.value hbefore hkeys hgap hspells hempty hgap₂ (hgap₃.append hc)
      simpa using hlonger
  | memberEnd hmembers hkeys => exact .memberEnd (hmembers.append hc) hkeys

theorem Stands.array_blank {phase : ArrayPhase} (hstands : Stands text (.array node phase))
    (hc : isBlank c = true) : Stands (text ++ [c]) (.array node phase) := by
  cases hstands with
  | valueOrClose hgap => exact .valueOrClose (hgap.append hc)
  | nextValue helements hgap =>
      have hlonger := Stands.nextValue helements (hgap.append hc)
      simpa using hlonger
  | elementEnd helements => exact .elementEnd (helements.append hc)

/-- A key goes on with every character, up to its closing quote. -/
theorem Stands.feedKey {body : Quoted} (hstands : Stands text (.object node (.key body)))
    (hfeed : Frame.feedObject node (.key body) c place = .ok turn) : turn.Stands text c := by
  cases hstands with
  | key hbefore hkeys hgap hraw =>
      simp only [Frame.feedObject] at hfeed
      split at hfeed
      next => cases hfeed
      next body hbody =>
        cases hfeed
        have hlonger := Stands.key hbefore hkeys hgap (hraw.more hbody)
        simpa [Turn.Stands] using hlonger
      next key hkey =>
        split at hfeed
        next => cases hfeed
        next hempty =>
          cases hfeed
          obtain ⟨rfl, hspells⟩ := hraw.closed hkey
          have hcolon := Stands.colon hbefore hkeys hgap hspells hempty .nil
          simpa [Turn.Stands] using hcolon

/-- Outside of keys every character but a blank is a token of the object or begins a value in it. -/
theorem Stands.feedObject_token {phase : ObjectPhase} (hstands : Stands text (.object node phase))
    (hphase : ∀ body, phase ≠ .key body) (hc : isBlank c = false)
    (hfeed : Frame.feedObject node phase c place = .ok turn) : turn.Stands text c := by
  unfold Frame.feedObject at hfeed
  simp only [hc, Bool.false_eq_true, if_false] at hfeed
  cases hstands with
  | keyOrClose hgap =>
      simp only at hfeed
      split at hfeed
      next hclose =>
        cases hfeed
        exact hclose ▸ .emptyObject hgap
      next =>
        split at hfeed
        next hquote =>
          cases hfeed
          exact hquote ▸ stands_key .first List.nodup_nil hgap
        next => cases hfeed
  | nextKey hmembers hkeys hgap =>
      simp only at hfeed
      split at hfeed
      next hquote =>
        cases hfeed
        have hkey := stands_key (.next hmembers) hkeys hgap
        simpa [Turn.Stands, hquote] using hkey
      next => cases hfeed
  | key => exact absurd rfl (hphase _)
  | colon hbefore hkeys hgap hspells hempty hgap₂ =>
      simp only at hfeed
      split at hfeed
      next hcolon =>
        cases hfeed
        have hvalue := Stands.value hbefore hkeys hgap hspells hempty hgap₂ .nil
        simpa [Turn.Stands, hcolon] using hvalue
      next => cases hfeed
  | value hbefore hkeys hgap hspells hempty hgap₂ hgap₃ =>
      simp only at hfeed
      split at hfeed
      next frame hstart =>
        cases hfeed
        exact ⟨.member hbefore hkeys hgap hspells hempty hgap₂ hgap₃, stands_of_start? hstart⟩
      next => cases hfeed
  | memberEnd hmembers hkeys =>
      simp only at hfeed
      split at hfeed
      next hcomma =>
        cases hfeed
        exact hcomma ▸ .nextKey hmembers hkeys .nil
      next =>
        split at hfeed
        next hclose =>
          cases hfeed
          exact hclose ▸ .object hmembers hkeys
        next => cases hfeed

theorem Stands.feedObject {phase : ObjectPhase} (hstands : Stands text (.object node phase))
    (hfeed : Frame.feedObject node phase c place = .ok turn) : turn.Stands text c := by
  by_cases hkey : ∃ body, phase = .key body
  · obtain ⟨body, rfl⟩ := hkey
    exact hstands.feedKey hfeed
  · have hphase := not_exists.mp hkey
    cases hblank : isBlank c with
    | true =>
        rw [feedObject_blank hphase hblank] at hfeed
        cases hfeed
        exact hstands.object_blank hphase hblank
    | false => exact hstands.feedObject_token hphase hblank hfeed

theorem Stands.feedArray {phase : ArrayPhase} (hstands : Stands text (.array node phase))
    (hfeed : Frame.feedArray node phase c place = .ok turn) : turn.Stands text c := by
  cases hblank : isBlank c with
  | true =>
      rw [feedArray_blank phase hblank] at hfeed
      cases hfeed
      exact hstands.array_blank hblank
  | false =>
      unfold Frame.feedArray at hfeed
      simp only [hblank, Bool.false_eq_true, if_false] at hfeed
      cases hstands with
      | valueOrClose hgap =>
          simp only at hfeed
          split at hfeed
          next hclose =>
            cases hfeed
            exact hclose ▸ .emptyArray hgap
          next =>
            split at hfeed
            next frame hstart =>
              cases hfeed
              exact ⟨.element .first hgap, stands_of_start? hstart⟩
            next => cases hfeed
      | nextValue helements hgap =>
          simp only at hfeed
          split at hfeed
          next frame hstart =>
            cases hfeed
            have hhole := Hole.Stands.element (.next helements) hgap
            exact ⟨by simpa using hhole, stands_of_start? hstart⟩
          next => cases hfeed
      | elementEnd helements =>
          simp only at hfeed
          split at hfeed
          next hcomma =>
            cases hfeed
            exact hcomma ▸ .nextValue helements .nil
          next =>
            split at hfeed
            next hclose =>
              cases hfeed
              exact hclose ▸ .array helements
            next => cases hfeed

/-- Every character that a value takes in goes on with it or ends it. -/
theorem Stands.feed {frame : Frame} (hstands : frame.Stands text)
    (hfeed : frame.feed c place = .ok turn) : turn.Stands text c := by
  cases frame with
  | object node phase => exact hstands.feedObject hfeed
  | array node phase => exact hstands.feedArray hfeed
  | string body =>
      cases hstands with
      | string hraw =>
          simp only [Frame.feed] at hfeed
          split at hfeed
          next => cases hfeed
          next body hbody =>
            cases hfeed
            exact .string (hraw.more hbody)
          next text htext =>
            cases hfeed
            obtain ⟨rfl, hspells⟩ := hraw.closed htext
            exact .string hspells
  | literal start token =>
      cases hstands
      simp only [Frame.feed] at hfeed
      split at hfeed
      next =>
        cases hfeed
        change Stands (token.toList ++ [c]) _
        rw [← String.toList_push]
        exact .literal start (token.push c)
      next =>
        obtain ⟨value, hvalue, rfl⟩ := map_eq_ok_iff.mp hfeed
        exact value_of_literalValue hvalue

end Frame

/-! ## Values in containers -/

variable {text outer : List Char} {value : Tree} {place : Cursor}

/-- A container that takes in a complete value goes on behind it. -/
theorem Hole.Stands.fill {hole : Hole} (hstands : hole.Stands outer) (hvalue : Value text value)
    {frame : Frame} (hfill : hole.fill value place = .ok frame) : frame.Stands (outer ++ text) := by
  have hautosort := hvalue.autosort_eq_false
  cases hstands with
  -- the check for repeated keys comes only now, when the value is complete
  | @member before gap body gap₂ gap₃ members key hbefore hkeys hgap hspells hempty hgap₂ hgap₃ =>
      rw [fill_member hkeys hempty hautosort] at hfill
      split at hfill
      next => cases hfill
      next hnew =>
        cases hfill
        have hmember := Member.mk hgap hspells hempty hgap₂ hgap₃ hvalue .nil
        have hlonger : ((members ++ [value.withKey key]).map Tree.key).Nodup := by
          rw [List.map_append, List.nodup_append]
          refine ⟨hkeys, List.nodup_singleton _, ?_⟩
          intro other hother last hlast heq
          obtain rfl : last = key := by simpa using hlast
          exact hnew (heq ▸ hother)
        have hend := Frame.Stands.memberEnd (hbefore.member hmember) hlonger
        simpa using hend
  | element hbefore hgap =>
      rw [fill_element hautosort] at hfill
      cases hfill
      have helement := Element.mk hgap hvalue .nil
      have hend := Frame.Stands.elementEnd (hbefore.element helement)
      simpa using hend

theorem document_of_value {gap : List Char} (hgap : Blanks gap) (hvalue : Value text value) :
    Document (gap ++ text) value := by
  have helement := Element.mk hgap hvalue .nil
  rwa [List.append_nil] at helement

theorem Around.deliver {around : List Hole} (haround : Around outer around)
    (hvalue : Value text value) {progress : Progress}
    (hdeliver : Progress.deliver value around place = .ok progress) :
    progress.Stands (outer ++ text) := by
  cases haround with
  | nil hgap =>
      cases hdeliver
      exact .done (document_of_value hgap hvalue)
  | cons hholes hhole =>
      obtain ⟨frame, hfill, rfl⟩ := map_eq_ok_iff.mp hdeliver
      rw [List.append_assoc]
      exact .within hholes (hhole.fill hvalue hfill)

/-! ## Characters of a document -/

/-- What has been read of a document around a value and of the value itself. -/
def Within (text : List Char) (top : Frame) (around : List Hole) : Prop :=
  ∃ before inner, Around before around ∧ top.Stands inner ∧ before ++ inner = text

/-- Every character inside a value goes on with the document. -/
theorem Within.feed {c : Char} {top : Frame} {around : List Hole} (hwithin : Within text top around)
    {next : Progress × Bool} (hfeed : Progress.feed {} c place top around = .ok next) :
    next.1.Stands (text ++ [c]) ∧ next.2 = false := by
  refine Progress.feed_induction (Within text)
    (fun next => next.1.Stands (text ++ [c]) ∧ next.2 = false) ?_ ?_ ?_ ?_ ?_ ?_ hwithin hfeed
  · rintro top around frame ⟨before, inner, haround, htop, rfl⟩ hturn
    rw [List.append_assoc]
    exact ⟨.within haround (htop.feed hturn), rfl⟩
  · rintro top around hole frame ⟨before, inner, haround, htop, rfl⟩ hturn
    obtain ⟨hhole, hframe⟩ := htop.feed hturn
    exact ⟨.within (.cons haround hhole) hframe, rfl⟩
  · rintro top around value last ⟨before, inner, haround, htop, rfl⟩ hturn hdeliver
    rw [List.append_assoc]
    exact ⟨haround.deliver (htop.feed hturn) hdeliver, rfl⟩
  · rintro top value stopped ⟨before, inner, haround, htop, rfl⟩ hturn hstopped hblank
    obtain rfl : stopped = false := hstopped.symm
    cases haround with
    | nil hgap =>
        have hdocument := document_of_value hgap (htop.feed hturn)
        exact ⟨.done (hdocument.append hblank), rfl⟩
  · rintro top hole outer value frame ⟨before, inner, haround, htop, rfl⟩ hturn hfill
    cases haround with
    | cons houter hhole =>
        exact ⟨_, _, houter, hhole.fill (htop.feed hturn) hfill, (List.append_assoc _ _ _).symm⟩
  · intro top around _ hstops
    cases hstops

namespace Reader

/-- A reader of a text in plain settings that has read so much. -/
def plain (cursor : Cursor) (progress : Progress) : Reader :=
  { options := {}, cursor, progress }

variable {cursor : Cursor} {progress : Progress}

/-- A reader that did not fail so far takes in a character by a step. -/
theorem feedChar_plain (hlive : ∀ fault, progress ≠ .failed fault) (c : Char) :
    (∀ next stopped, (plain cursor progress).step c (cursor.advance c) = .ok (next, stopped) →
        (plain cursor progress).feedChar c =
          (.ok (), { plain (cursor.advance c) next with stopped })) ∧
      ∀ fault, (plain cursor progress).step c (cursor.advance c) = .error fault →
        (plain cursor progress).feedChar c =
          (.error fault, plain (cursor.advance c) (.failed fault)) := by
  unfold feedChar
  split
  next fault hfailed => exact absurd hfailed (hlive fault)
  next =>
    split
    next hstopped => cases hstopped
    next =>
      constructor
      · intro next stopped hstep
        simp only [plain] at hstep ⊢
        rw [hstep]
      · intro fault hstep
        simp only [plain] at hstep ⊢
        rw [hstep]

/-- A reader that takes in a character goes on with the rest of the text. -/
theorem feed_cons_of_step {c : Char} {rest : List Char} {next : Progress}
    (hstep : (plain cursor progress).step c (cursor.advance c) = .ok (next, false)) :
    (plain cursor progress).feed (c :: rest) = (plain (cursor.advance c) next).feed rest := by
  have hlive : ∀ fault, progress ≠ .failed fault := by
    rintro fault rfl
    cases hstep
  rw [feed, (feedChar_plain hlive c).1 next false hstep]
  rfl

/-- A reader that goes on behind a character has taken it in. -/
theorem step_of_feed_cons {c : Char} {rest : List Char} {reader : Reader}
    (hfeed : (plain cursor progress).feed (c :: rest) = (.ok (), reader)) :
    ∃ next, (plain cursor progress).step c (cursor.advance c) = .ok next := by
  have hlive : ∀ fault, progress ≠ .failed fault := by
    rintro fault rfl
    cases hfeed
  cases hstep : (plain cursor progress).step c (cursor.advance c) with
  | ok next => exact ⟨next, rfl⟩
  | error fault =>
      rw [feed, (feedChar_plain hlive c).2 fault hstep] at hfeed
      cases hfeed

/-- Every character that the reader takes in goes on with the document. -/
theorem stands_of_step {c : Char} (hstands : progress.Stands text) {next : Progress × Bool}
    (hstep : (plain cursor progress).step c place = .ok next) :
    next.1.Stands (text ++ [c]) ∧ next.2 = false := by
  unfold step at hstep
  simp only [plain, List.contains_nil, Bool.false_or, Bool.and_false, Bool.false_eq_true,
    if_false] at hstep
  cases hstands with
  | fresh hgap =>
      simp only at hstep
      split at hstep
      next hblank =>
        cases hstep
        exact ⟨.fresh (hgap.append hblank), rfl⟩
      next =>
        split at hstep
        next frame hstart =>
          cases hstep
          exact ⟨.within (.nil hgap) (Frame.stands_of_start? hstart), rfl⟩
        next => cases hstep
  | within haround htop => exact Within.feed ⟨_, _, haround, htop, rfl⟩ hstep
  | done hdocument =>
      simp only at hstep
      split at hstep
      next hblank =>
        cases hstep
        exact ⟨.done (hdocument.append hblank), rfl⟩
      next => cases hstep

/-- Whatever has been read of a text is the beginning of a document. -/
theorem stands_of_feed {before : List Char} (hstands : progress.Stands before) {reader : Reader}
    (hfeed : (plain cursor progress).feed text = (.ok (), reader)) :
    reader.progress.Stands (before ++ text) := by
  -- what was read before grows with every character of the text
  induction text generalizing before cursor progress with
  | nil =>
      cases hfeed
      rwa [List.append_nil]
  | cons c rest ih =>
      obtain ⟨⟨next, stopped⟩, hstep⟩ := step_of_feed_cons hfeed
      obtain ⟨hnext, rfl⟩ := stands_of_step hstands hstep
      rw [feed_cons_of_step hstep] at hfeed
      have hrest := ih hnext hfeed
      rwa [List.append_assoc] at hrest

/-- What is complete at the end of the text is a document. -/
theorem document_of_finish {reader : Reader} (hstands : reader.progress.Stands text) {tree : Tree}
    (hfinish : reader.finish = .ok tree) : Document text tree := by
  unfold finish at hfinish
  generalize reader.progress = progress at hstands hfinish
  -- only a literal on its own may still be open at the end
  cases hstands with
  | fresh hgap => cases hfinish
  | done hdocument =>
      cases hfinish
      exact hdocument
  | @within outer text top around haround htop =>
      cases top with
      | literal start token =>
          cases htop
          cases haround with
          | nil hgap => exact document_of_value hgap (Frame.value_of_literalValue hfinish)
          | cons hholes hhole => cases hfinish
      | object node phase => cases hfinish
      | array node phase => cases hfinish
      | string body => cases hfinish

end Reader

/-- A text that is read to its end is a document. -/
theorem document_of_decode {text : String} {tree : Tree} (hdecode : decode {} text = .ok tree) :
    Document text.toList tree := by
  unfold decode at hdecode
  split at hdecode
  next reader hfeed =>
    have hstart : Progress.fresh.Stands [] := .fresh .nil
    exact Reader.document_of_finish (Reader.stands_of_feed hstart hfeed) hdecode
  next => cases hdecode

end KeyedTree
