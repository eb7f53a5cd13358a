import KeyedTree.Json.Bridge
import KeyedTree.Proofs.Grammar.Rendering

/-! # One text from two writers

The fixture layout and JSON text are written by two functions that know nothing of each other. They
escape different characters, and they treat keys in arrays and nodes without a key in different
ways. Where none of this matters, the compact layout and the JSON text of a tree are the same.
-/

namespace KeyedTree

open Grammar

/-- Nothing in a node tells the two writers apart: it is initialized, its children have keys exactly
if it is an object, and apart from line feeds and tabs in values there is no character that one of
the writers escapes. -/
structure Tree.Common (node : Tree) : Prop where
  initialized : node.kind ≠ .uninitialized
  anonymous : node.kind = .array → ∀ child ∈ node.children, child.key = ""
  named : node.kind = .object → ∀ child ∈ node.children, child.key ≠ ""
  value : ∀ text, node.payload = .string text →
    ∀ c ∈ text.toList, c ≠ '"' ∧ c ≠ '\\' ∧ (c.toNat < 0x20 → c = '\n' ∨ c = '\t')
  keys : ∀ key ∈ node.keys, ∀ c ∈ key.toList, c ≠ '"' ∧ c ≠ '\\' ∧ 0x20 ≤ c.toNat

/-! ## Quoted texts -/

/-- Characters that both writers escape, or none of them, are written alike. -/
theorem Json.escape_eq_escape {c : Char} (hquote : c ≠ '"') (hslash : c ≠ '\\')
    (hcontrol : c.toNat < 0x20 → c = '\n' ∨ c = '\t') : Json.escape c = Layout.escape c := by
  by_cases hshort : c = '\n' ∨ c = '\t'
  · rcases hshort with rfl | rfl <;> rfl
  · have hprinted : ¬ c.toNat < 0x20 := mt hcontrol hshort
    obtain ⟨hfeed, htab⟩ := not_or.mp hshort
    -- the other short escapes stand for control characters
    have hcontrols : c ≠ '\x08' ∧ c ≠ '\x0c' ∧ c ≠ '\r' := by
      refine ⟨?_, ?_, ?_⟩ <;> rintro rfl <;> exact hprinted (by decide)
    rw [Json.escape.eq_def, Layout.escape.eq_def]
    split <;> simp_all

theorem Json.quote_append_eq {text : String} (rest : List Char)
    (htext : ∀ c ∈ text.toList, c ≠ '"' ∧ c ≠ '\\' ∧ (c.toNat < 0x20 → c = '\n' ∨ c = '\t')) :
    Json.quote text ++ rest = Layout.quote text rest := by
  have hbody : text.toList.flatMap Json.escape = text.toList.flatMap Layout.escape :=
    List.flatMap_congr fun c hc => escape_eq_escape (htext c hc).1 (htext c hc).2.1 (htext c hc).2.2
  simp [Json.quote, Layout.quote, hbody]

/-- A key without characters to escape is written as it is. -/
theorem Json.quote_eq {key : String}
    (hkey : ∀ c ∈ key.toList, c ≠ '"' ∧ c ≠ '\\' ∧ 0x20 ≤ c.toNat) :
    Json.quote key = '"' :: (key.toList ++ ['"']) := by
  have hraw : ∀ c ∈ key.toList, Json.escape c = [c] := by
    intro c hc
    obtain ⟨hquote, hslash, hprinted⟩ := hkey c hc
    rw [escape_eq_escape hquote hslash fun hcontrol => absurd hprinted (Nat.not_le.mpr hcontrol)]
    unfold Layout.escape
    split
    next => exact absurd hprinted (by decide)
    next => exact absurd hprinted (by decide)
    next => rfl
  rw [Json.quote, List.flatMap_congr hraw, List.flatMap_singleton', List.cons_append]

/-! ## Rows and nodes -/

namespace Layout

/-- The children of a container are written alike if each of them is. -/
theorem exists_rowJsonChars {named : Bool} {children : List Tree}
    (hchild : ∀ child ∈ children, ∃ chars, child.jsonChars = .ok chars ∧ ∀ depth rest,
      write false depth true child rest = Tree.jsonEntry named child.key chars ++ rest) :
    ∃ row, Tree.rowJsonChars named children = .ok row ∧
      ∀ depth rest, writeRow false depth children rest = row ++ rest := by
  induction children with
  | nil => exact ⟨[], rfl, fun _ _ => rfl⟩
  | cons child more ih =>
      obtain ⟨⟨chars, hchars, hwrite⟩, hmore⟩ := List.forall_mem_cons.mp hchild
      cases more with
      | nil =>
          refine ⟨Tree.jsonEntry named child.key chars, ?_, fun depth rest => ?_⟩
          · rw [Tree.rowJsonChars, hchars]
            rfl
          · rw [writeRow, hwrite]
            rfl
      | cons next others =>
          obtain ⟨row, hrow, hwrites⟩ := ih hmore
          refine ⟨Tree.jsonEntry named child.key chars ++ ',' :: row, ?_, fun depth rest => ?_⟩
          · rw [Tree.rowJsonChars, hchars]
            simp only [hrow]
            rfl
          · rw [writeRow, hwrites, hwrite, lineBreak, if_neg Bool.false_ne_true, List.append_assoc,
              List.cons_append]

/-- A node has a JSON text, and the compact layout writes this text, behind the node's key if that
is written. -/
theorem exists_jsonChars {tree : Tree} (htree : tree.Throughout Tree.Common) :
    ∃ chars, tree.jsonChars = .ok chars ∧ ∀ depth named rest,
      write false depth named tree rest = label false (if named then tree.key else "")
        (chars ++ rest) := by
  induction htree with
  | @node head children hnode below ih =>
      -- the row of a container is written alike, whether its keys are written or there are none
      have hrow : ∀ named, (∀ child ∈ children, ∀ chars,
          label false child.key chars = Tree.jsonEntry named child.key chars) →
          ∃ row, Tree.rowJsonChars named children = .ok row ∧
            ∀ depth rest, writeRow false depth children rest = row ++ rest := by
        intro named hlabel
        refine exists_rowJsonChars fun child hmem => ?_
        obtain ⟨chars, hchars, hwrite⟩ := ih child hmem
        refine ⟨chars, hchars, fun depth rest => ?_⟩
        rw [hwrite, if_pos rfl, hlabel child hmem]
        unfold Tree.jsonEntry
        split <;> simp
      have hindent : ∀ depth rest, indent false depth rest = rest := fun _ _ => rfl
      have hbreak : ∀ rest, lineBreak false rest = rest := fun _ => rfl
      rw [Tree.jsonChars]
      simp only [write, hindent, hbreak]
      cases hpayload : head.payload with
      | uninitialized => exact absurd (Head.kind_of_payload hpayload) hnode.initialized
      | null => exact ⟨_, rfl, fun _ _ _ => rfl⟩
      | bool value => exact ⟨_, rfl, fun _ _ _ => rfl⟩
      | integer value => exact ⟨_, rfl, fun _ _ _ => rfl⟩
      | string value =>
          refine ⟨_, rfl, fun depth named rest => ?_⟩
          rw [Json.quote_append_eq rest (hnode.value value hpayload)]
          rfl
      | array =>
          obtain ⟨row, hchars, hwrites⟩ := hrow false fun child hmem chars => by
            rw [hnode.anonymous (Head.kind_of_payload hpayload) child hmem]
            rfl
          refine ⟨'[' :: row ++ [']'], ?_, fun depth named rest => ?_⟩
          · rw [hchars]
            rfl
          · simp [hwrites, Tree.key, Tree.head]
      | object =>
          obtain ⟨row, hchars, hwrites⟩ := hrow true fun child hmem chars => by
            have hkeys := hnode.keys child.key (List.mem_map_of_mem hmem)
            have hkey := hnode.named (Head.kind_of_payload hpayload) child hmem
            rw [label, if_neg hkey, Tree.jsonEntry, if_pos rfl, Json.quote_eq hkeys]
            simp
          refine ⟨'{' :: row ++ ['}'], ?_, fun depth named rest => ?_⟩
          · rw [hchars]
            rfl
          · simp [hwrites, Tree.key, Tree.head]

end Layout

/-- The JSON text of a tree and its compact layout without the key of the root are the same,
character by character, if nothing in the nodes of the tree tells the two writers apart. -/
theorem jsonText_eq_render {tree : Tree} (htree : tree.Throughout Tree.Common) :
    tree.jsonText = .ok (tree.render false false) := by
  obtain ⟨chars, hchars, hwrite⟩ := Layout.exists_jsonChars htree
  rw [Tree.jsonText, hchars, Tree.render, hwrite]
  simp only [Bool.false_eq_true, if_false, Layout.label, if_pos, List.append_nil]
  rfl

/-- A tree whose root has a key that the two writers would write in different ways. -/
def commonTree : Tree :=
  (objectOf [(Tree.leaf (.string "one\n\ttwo")).withKey "lines",
    (arrayOf [.leaf .null, .leaf (.integer Int64.minValue)]).withKey "élan"]).withKey "\"\\\n"

theorem commonTree_written_alike :
    commonTree.Throughout Tree.Common ∧
      commonTree.jsonText = .ok (commonTree.render false false) := by
  have hlines : ((Tree.leaf (.string "one\n\ttwo")).withKey "lines").Throughout Tree.Common := by
    refine .childless ⟨nofun, nofun, nofun, ?_, nofun⟩ rfl
    rintro _ ⟨⟩
    simp
  have hitems : ∀ child ∈ [Tree.leaf .null, .leaf (.integer Int64.minValue)],
      child.Throughout Tree.Common :=
    List.forall_mem_cons.mpr ⟨.childless ⟨nofun, nofun, nofun, nofun, nofun⟩ rfl,
      List.forall_mem_singleton.mpr (.childless ⟨nofun, nofun, nofun, nofun, nofun⟩ rfl)⟩
  have hnumbers :
      ((arrayOf [.leaf .null, .leaf (.integer Int64.minValue)]).withKey "élan").Throughout
      Tree.Common := by
    refine .node ⟨nofun, fun _ => by decide, nofun, nofun, ?_⟩ hitems
    change ∀ key ∈ ["", ""], _
    simp
  have htree : commonTree.Throughout Tree.Common := by
    refine .node ⟨nofun, nofun, fun _ => by decide, nofun, ?_⟩
      (List.forall_mem_cons.mpr ⟨hlines, List.forall_mem_singleton.mpr hnumbers⟩)
    change ∀ key ∈ ["lines", "élan"], _
    simp
  exact ⟨htree, jsonText_eq_render htree⟩

end KeyedTree
