import KmlTree.Element.Basic

/-!
This module contains the workspace: a set of named slots that each own one element.
-/

namespace KmlTree

/--
Named places that own an element each. `fresh` is the number that the next element gets, `origins` has
the slots into which elements were put when they were made. The `single` element and the
`listed` ones belong to no slot; `claimSingle` and `claimListed` put elements there.
-/
structure Workspace where
  slots : List (String × Element)
  origins : List (Nat × String)
  fresh : Nat
  single : Option Element
  listed : List Element

namespace Workspace

def empty (fresh : Nat) : Workspace := ⟨[], [], fresh, none, []⟩

def get? (w : Workspace) (slot : String) : Option Element :=
  w.slots.lookup slot

def erase (w : Workspace) (slot : String) : Workspace :=
  { w with slots := w.slots.filter fun entry => entry.1 != slot }

def put (w : Workspace) (slot : String) (e : Element) : Workspace :=
  { w with slots := (w.erase slot).slots ++ [(slot, e)] }

/--
The names of the slots that have an element, in the order of their code points.
-/
def live (w : Workspace) : List String :=
  (w.slots.map Prod.fst).mergeSort

/--
The slot into which the element with a given number was put when it was made.
-/
def origin? (w : Workspace) (id : Nat) : Option String :=
  w.origins.lookup id

/--
Put an element into a slot that has just been made. `fresh` is the number that the next one gets.
-/
def putNew (w : Workspace) (slot : String) (e : Element) (fresh : Nat) : Workspace :=
  { w.put slot e with origins := (e.id, slot) :: w.origins, fresh := fresh }

end Workspace

end KmlTree
