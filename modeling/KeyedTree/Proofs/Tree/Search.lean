import KeyedTree.Proofs.Tree.Preorder

/-! # Searches

A search asks its predicate about one node after the other, in pre-order, up to the first node that
satisfies it. The predicate may keep a state, which goes from question to question. So a search
through a tree is a scan of the listed nodes, and what a scan comes to is said by the questions that
it asks.
-/

namespace KeyedTree

variable {σ τ : Type}

/-- A question that a search asks: the node that it is about and the state before it, and what the
predicate answers and leaves of the state. -/
structure Question (σ : Type) where
  node : Tree
  given : σ
  answer : Bool
  returned : σ

namespace Tree

/-- A predicate that takes a note of every question and answers as before. -/
def noting (note : τ → Question σ → τ) (asks : Tree → StateM σ Bool) (node : Tree) :
    StateM (σ × τ) Bool :=
  fun (state, notes) =>
    let (answer, next) := (asks node).run state
    (answer, next, note notes ⟨node, state, answer, next⟩)

/-- A predicate that lists the questions in their order. -/
def recording (asks : Tree → StateM σ Bool) : Tree → StateM (σ × List (Question σ)) Bool :=
  noting (fun questions question => questions ++ [question]) asks

/-- A predicate that counts the questions. -/
def counting (asks : Tree → StateM σ Bool) : Tree → StateM (σ × Nat) Bool :=
  noting (fun count _ => count + 1) asks

end Tree

variable {asks : Tree → StateM σ Bool} {state middle last : σ} {nodes more : List Tree}
  {node tree : Tree} {questions : List (Question σ)} {found : Bool}

/-! ## Scans of listed nodes -/

/-- A scan of nodes asks these questions, and this is its answer and the state at its end. -/
inductive Scan (asks : Tree → StateM σ Bool) : σ → List Tree → List (Question σ) → Bool → σ → Prop
  | nil (state : σ) : Scan asks state [] [] false state
  | stop {state last : σ} {node : Tree} (rest : List Tree) :
      (asks node).run state = (true, last) →
        Scan asks state (node :: rest) [⟨node, state, true, last⟩] true last
  | next {state middle last : σ} {node : Tree} {rest : List Tree} {questions : List (Question σ)}
      {found : Bool} :
      (asks node).run state = (false, middle) → Scan asks middle rest questions found last →
      Scan asks state (node :: rest) (⟨node, state, false, middle⟩ :: questions) found last

/-- Questions are put to a predicate, each in the state that the one before it left. -/
def Question.Thread (asks : Tree → StateM σ Bool) : σ → List (Question σ) → σ → Prop
  | state, [], last => last = state
  | state, question :: rest, last =>
      question.given = state ∧
        (asks question.node).run state = (question.answer, question.returned) ∧
        Thread asks question.returned rest last

theorem Tree.run_anyM_cons (asks : Tree → StateM σ Bool) (node : Tree) (rest : List Tree)
    (state : σ) :
    ((node :: rest).anyM asks).run state =
      match (asks node).run state with
      | (true, next) => (true, next)
      | (false, next) => (rest.anyM asks).run next := by
  rw [List.anyM_cons, StateT.run_bind]
  rcases (asks node).run state with ⟨_ | _, next⟩ <;> rfl

theorem Tree.run_noting {answer : Bool} (hasks : (asks node).run state = (answer, last))
    (note : τ → Question σ → τ) (notes : τ) :
    (noting note asks node).run (state, notes) =
      (answer, last, note notes ⟨node, state, answer, last⟩) := by
  change (let (answer, next) := (asks node).run state;
    (answer, next, note notes ⟨node, state, answer, next⟩)) = _
  rw [hasks]

namespace Scan

theorem thread (hscan : Scan asks state nodes questions found last) :
    Question.Thread asks state questions last := by
  induction hscan with
  | nil => rfl
  | stop rest hasks => exact ⟨rfl, hasks, rfl⟩
  | next hasks _ ih => exact ⟨rfl, hasks, ih⟩

/-- The questions are about the nodes in their order, and about all of them unless one satisfied the
predicate. -/
theorem exists_rest (hscan : Scan asks state nodes questions found last) :
    ∃ rest, nodes = questions.map Question.node ++ rest ∧ (found = false → rest = []) := by
  induction hscan with
  | nil => exact ⟨[], rfl, fun _ => rfl⟩
  | stop rest _ => exact ⟨rest, rfl, nofun⟩
  | next _ _ ih =>
      obtain ⟨rest, hsplit, hall⟩ := ih
      exact ⟨rest, by rw [hsplit, List.map_cons, List.cons_append], hall⟩

/-- Whatever the last question was answered, the others were denied. -/
theorem denied (hscan : Scan asks state nodes questions found last) :
    ∀ question ∈ questions.dropLast, question.answer = false := by
  induction hscan with
  | nil => exact nofun
  | stop => exact nofun
  | @next _ _ _ _ _ questions _ _ _ ih =>
      cases questions with
      | nil => exact nofun
      | cons second others => exact List.forall_mem_cons.mpr ⟨rfl, ih⟩

theorem found_iff (hscan : Scan asks state nodes questions found last) :
    found = true ↔ ∃ question ∈ questions, question.answer = true := by
  induction hscan with
  | nil => simp
  | stop => simp
  | next _ _ ih => simp [ih]

/-- A scan makes the predicate take a note of every question. -/
theorem run_noting (hscan : Scan asks state nodes questions found last) (note : τ → Question σ → τ)
    (notes : τ) :
    (nodes.anyM (Tree.noting note asks)).run (state, notes) =
      (found, last, questions.foldl note notes) := by
  induction hscan generalizing notes with
  | nil => rfl
  | stop rest hasks =>
      rw [Tree.run_anyM_cons, Tree.run_noting hasks]
      rfl
  | next hasks _ ih =>
      rw [Tree.run_anyM_cons, Tree.run_noting hasks]
      exact ih _

theorem run (hscan : Scan asks state nodes questions found last) :
    (nodes.anyM asks).run state = (found, last) := by
  induction hscan with
  | nil => rfl
  | stop rest hasks => rw [Tree.run_anyM_cons, hasks]
  | next hasks _ ih =>
      rw [Tree.run_anyM_cons, hasks]
      exact ih

end Scan

theorem exists_scan (asks : Tree → StateM σ Bool) (nodes : List Tree) (state : σ) :
    ∃ questions found last, Scan asks state nodes questions found last := by
  induction nodes generalizing state with
  | nil => exact ⟨[], false, state, .nil state⟩
  | cons node rest ih =>
      obtain ⟨answer, middle, hasks⟩ :
        ∃ answer middle, (asks node).run state = (answer, middle) := ⟨_, _, rfl⟩
      cases answer with
      | true => exact ⟨_, true, middle, .stop rest hasks⟩
      | false =>
          obtain ⟨questions, found, last, hscan⟩ := ih middle
          exact ⟨_, found, last, .next hasks hscan⟩

/-! ## Searches are scans -/

namespace Tree

/-- A scan goes on behind a row of nodes if none of them satisfies the predicate. -/
theorem anyM_append (asks : Tree → StateM σ Bool) (nodes more : List Tree) :
    (nodes ++ more).anyM asks = (do
      if ← nodes.anyM asks then
        return true
      more.anyM asks) := by
  induction nodes with
  | nil => simp
  | cons node rest ih =>
      simp only [List.cons_append, List.anyM_cons, ih, bind_assoc]
      refine congrArg _ (funext fun answer => ?_)
      cases answer <;> simp

/-- A search is a scan of the nodes in pre-order. -/
theorem search_eq_anyM (asks : Tree → StateM σ Bool) (tree : Tree) :
    tree.search asks = tree.preorder.anyM asks := by
  induction tree using Tree.induction with
  | node head children ih =>
      have hrow : searchRow asks children = (children.flatMap preorder).anyM asks := by
        induction children with
        | nil => rfl
        | cons child rest ihrest =>
            obtain ⟨hchild, hrest⟩ := List.forall_mem_cons.mp ih
            rw [searchRow, List.flatMap_cons, anyM_append, hchild, ihrest hrest]
      rw [search, preorder_node, List.anyM_cons, hrow]

end Tree

/-- What a search through a tree comes to: the paths to the nodes that it asks about, the questions,
the answer and the state at the end. -/
structure Searched (asks : Tree → StateM σ Bool) (tree : Tree) (state : σ) (paths : List (List Nat))
    (questions : List (Question σ)) (found : Bool) (last : σ) : Prop where
  /-- the questions are put to the predicate one after the other -/
  thread : Question.Thread asks state questions last
  /-- they are about the nodes at the ends of the paths -/
  asked : questions.map (some ·.node) = paths.map tree.subtree?
  /-- the nodes are asked about in pre-order, none of them twice -/
  preorder : paths.Pairwise (· < ·)
  /-- if the search leaves out nodes, it has found one, and they all come later -/
  rest : ∀ path, (tree.subtree? path).isSome → path ∉ paths →
    found = true ∧ ∀ asked ∈ paths, asked < path
  /-- no question but the last one is answered by yes -/
  denied : ∀ question ∈ questions.dropLast, question.answer = false
  /-- the answer is whether some question is -/
  found_iff : found = true ↔ ∃ question ∈ questions, question.answer = true

/-- A scan of all nodes of a tree in pre-order asks what a search asks. -/
theorem Scan.exists_searched (hscan : Scan asks state tree.preorder questions found last) :
    ∃ paths, Searched asks tree state paths questions found last := by
  obtain ⟨rest, hsplit, hall⟩ := hscan.exists_rest
  have hpaths : tree.paths.map tree.subtree? = questions.map (some ·.node) ++ rest.map some := by
    rw [Tree.map_subtree?_paths, hsplit, List.map_append, List.map_map]
    rfl
  obtain ⟨paths, others, hlisted, hasked, hothers⟩ := List.map_eq_append_iff.mp hpaths
  have hascending := tree.paths_ascending
  rw [hlisted] at hascending
  obtain ⟨hfront, _, hlater⟩ := List.pairwise_append.mp hascending
  refine ⟨paths, hscan.thread, hasked.symm, hfront, fun path hthere hout => ?_, hscan.denied,
    hscan.found_iff⟩
  have hmem : path ∈ others := by
    have hpath := Tree.mem_paths_iff.mpr hthere
    rw [hlisted] at hpath
    exact (List.mem_append.mp hpath).resolve_left hout
  refine ⟨?_, fun asked hasked => hlater asked hasked path hmem⟩
  -- if nothing was found, no node was left out
  by_contra hdenied
  obtain rfl : rest = [] := hall (eq_false_of_ne_true hdenied)
  obtain rfl : others = [] := List.map_eq_nil_iff.mp hothers
  cases hmem

/-- A search asks its predicate about the nodes of the tree in pre-order, about each of them once,
up to the first one that satisfies it, and about no later one. It answers whether there is such a
node; if there is none, the predicate is asked about every node. The state that the predicate keeps
goes from each question to the next. -/
theorem search_asks_in_preorder (asks : Tree → StateM σ Bool) (tree : Tree) (state : σ) :
    ∃ paths questions found last,
      (tree.search asks).run state = (found, last) ∧
        (tree.search (Tree.recording asks)).run (state, []) = (found, last, questions) ∧
          Searched asks tree state paths questions found last := by
  obtain ⟨questions, found, last, hscan⟩ := exists_scan asks tree.preorder state
  obtain ⟨paths, hsearched⟩ := hscan.exists_searched
  have hrecorded := hscan.run_noting (fun questions question => questions ++ [question]) []
  rw [List.foldl_append_eq_append, List.nil_append, ← List.flatMap_def,
    List.flatMap_singleton'] at hrecorded
  refine ⟨paths, questions, found, last, ?_, ?_, hsearched⟩
  · rw [Tree.search_eq_anyM, hscan.run]
  · rw [Tree.search_eq_anyM, Tree.recording, hrecorded]

end KeyedTree
