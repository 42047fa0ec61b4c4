import KmlTree.Proofs.Element.Built
import KmlTree.Proofs.Workspace.Invariant

/-!
This module contains the commands that make elements without reading any markup: all elements that they
leave in the slots of a workspace are built (`Workspace.isBuilt_run`).
-/

namespace KmlTree

namespace Element

/--
The elements that are built are those of which every typed invariant holds.
-/
theorem typedInvariant_built : TypedInvariant Built :=
  ⟨.create, .assign, .setXmlns, .replaceChild, .clearChild, .appendChild, .addPosition, .clearPositions⟩

end Element

namespace Workspace

def IsBuilt (w : Workspace) : Prop := ∀ entry ∈ w.slots, entry.2.Built

theorem IsBuilt.of_all {w : Workspace} (h : w.All Element.Built) : w.IsBuilt := by
  intro entry hentry
  apply h
  unfold owned
  rw [List.append_assoc]
  exact List.mem_append_left _ (List.mem_map_of_mem hentry)

/--
Whatever typed commands are executed, in whatever order, all elements in the slots are built.
-/
theorem isBuilt_run {commands : List Command} (hcommands : ∀ c ∈ commands, c.isTyped = true)
    (fresh : Nat) : (commands.foldl (fun w c => (w.exec c).1) (empty fresh)).IsBuilt := by
  have hrun (w : Workspace) (h : w.All Element.Built) :
      (commands.foldl (fun w c => (w.exec c).1) w).All Element.Built := by
    induction commands generalizing w with
    | nil => exact h
    | cons c commands ih =>
      rw [List.forall_mem_cons] at hcommands
      rw [List.foldl_cons]
      exact ih hcommands.2 _ (h.exec_typed Element.typedInvariant_built hcommands.1)
  apply IsBuilt.of_all
  apply hrun
  intro e he
  cases he

end Workspace

end KmlTree
