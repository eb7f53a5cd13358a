import KeyedTree.Proofs.Script.Operations
import KeyedTree.Proofs.WellFormed.Lookup

/-! # Every index is right after every run

Whatever operations a program is made of, it leaves trees whose indices agree with the children. So
lookup, presence and the listing of keys are what a scan of the children gives.
-/

namespace KeyedTree

/-- Every node that a program made of operations leaves in a slot is indexed, whichever operations
were refused and whatever was done under guards. -/
theorem held_nodes_indexed {α : Type} {program : Program α} (hprogram : program.Operates .free)
    {slot : Slot} {tree : Tree}
    (hheld : (program.run ({} : SharedStore)).2.view? ⟨slot, []⟩ = some tree) {depth : Nat}
    {node : Tree} (hnode : (depth, node) ∈ tree.nodes) : node.Indexed :=
  Tree.indexed_of_outline (hprogram.wellFormed hheld |>.of_mem_nodes hnode).outline

/-- A script that edits two children of an object under guards. The first is to take the key of the
second, which is given up again; the second gets a new key. -/
def rekeyingScript : Script :=
  { nodes := [("a", .new (.node .object none false false
      [.node (.integer 1) (some "k") false false [],
        .node (.bool true) (some "m") false false []]))]
    steps :=
      [⟨"a", .act [] (.visit (.childOf "k") [.edit (.setKey "m"), .edit (.setInteger 7)])⟩,
        ⟨"a", .act [.childOf "m"] (.edit (.setKey "b"))⟩]
    quiet := true }

theorem rekeyed_node_indexed :
    rekeyingScript.run.run.Operates .free ∧
      ∃ tree, (rekeyingScript.run.run.run ({} : SharedStore)).2.view? ⟨.register "a", []⟩ =
        some tree ∧ (0, tree) ∈ tree.nodes ∧ tree.keys = ["k", "b"] ∧ tree.Indexed := by
  have hoperates : rekeyingScript.run.run.Operates .free :=
    Script.operates_run (by decide)
  have hkeys : ((rekeyingScript.run.run.run ({} : SharedStore)).2.view? ⟨.register "a", []⟩).map
      Tree.keys = some ["k", "b"] := by
    cbv
  obtain ⟨tree, hheld, hkeys⟩ := Option.map_eq_some_iff.mp hkeys
  have hroot : (0, tree) ∈ tree.nodes := by
    cases tree
    exact List.mem_cons_self
  exact ⟨hoperates, tree, hheld, hroot, hkeys, held_nodes_indexed hoperates hheld hroot⟩

end KeyedTree
