import KmlTree.Proofs.Document.Growth
import KmlTree.Proofs.Document.Shifted
import Mathlib.Order.Monotone.Defs

/-!
This module contains elements with other numbers in place of their own (`Element.renamed`). Which number is
the first one when a text is parsed decides nothing but the numbers of the elements, and not even their
order (`parseDocument_renamed`).
-/

namespace KmlTree

mutual

/--
An element in which every number is replaced by another one, and nothing else.
-/
def Element.renamed (rename : Nat → Nat) : Element → Element
  | ⟨head, body, placed, misplaced⟩ =>
    ⟨{ head with id := rename head.id, parent := head.parent.map rename }, body,
      renamedAll rename placed, renamedAll rename misplaced⟩

def renamedAll (rename : Nat → Nat) : List Element → List Element
  | [] => []
  | e :: es => e.renamed rename :: renamedAll rename es

end

theorem renamedAll_eq (rename : Nat → Nat) (es : List Element) :
    renamedAll rename es = es.map (Element.renamed rename) := by
  induction es with
  | nil =>
    rw [renamedAll]
    rfl
  | cons e es ih => rw [renamedAll, ih, List.map_cons]

namespace Element

/--
The numbers that occur in an element: those of the elements in it, and those of their parents.
-/
def numbers (e : Element) : List Nat := e.all.flatMap fun x => x.id :: x.parent?.toList

theorem renamed_eq (rename : Nat → Nat) (e : Element) :
    e.renamed rename = ⟨{ e.head with id := rename e.head.id, parent := e.head.parent.map rename },
      e.body, e.placed.map (renamed rename), e.misplaced.map (renamed rename)⟩ := by
  obtain ⟨head, body, placed, misplaced⟩ := e
  rw [renamed, renamedAll_eq, renamedAll_eq]

/--
An element that is moved to other numbers and then renamed is the one that is moved elsewhere, if the
renaming takes the numbers there.
-/
theorem renamed_shifted {rename : Nat → Nat} {k k' : Nat} (h : ∀ n, rename (n + k) = n + k')
    (e : Element) : (e.shifted k).renamed rename = e.shifted k' := by
  induction e using Element.induction with
  | step e hplaced hmisplaced =>
    have hmap {es : List Element} (hes : ∀ c ∈ es, (c.shifted k).renamed rename = c.shifted k') :
        (es.map (shifted k)).map (renamed rename) = es.map (shifted k') := by
      rw [List.map_map]
      exact List.map_congr_left hes
    have hparent : (e.head.parent.map (· + k)).map rename = e.head.parent.map (· + k') := by
      rw [Option.map_map]
      congr 1
      funext n
      exact h n
    rw [shifted_eq, renamed_eq, shifted_eq k' e]
    dsimp only [Head.shifted]
    rw [hmap hplaced, hmap hmisplaced, h, hparent]

theorem le_of_mem_numbers_shifted (k : Nat) (e : Element) : ∀ n ∈ (e.shifted k).numbers, k ≤ n := by
  have hall : ∀ x ∈ (e.shifted k).all, k ≤ x.id ∧ ∀ p ∈ x.parent?, k ≤ p := by
    induction e using Element.induction with
    | step e hplaced hmisplaced =>
      rw [forall_mem_all, shifted_eq]
      constructor
      . constructor
        . exact Nat.le_add_left k e.head.id
        . intro p hp
          obtain ⟨n, _, rfl⟩ := Option.map_eq_some_iff.mp hp
          exact Nat.le_add_left k n
      . dsimp only
        rw [← List.map_append, List.forall_mem_map, List.forall_mem_append]
        exact ⟨hplaced, hmisplaced⟩
  intro n hn
  obtain ⟨x, hx, hmem⟩ := List.mem_flatMap.mp hn
  obtain ⟨hid, hparent⟩ := hall x hx
  cases List.mem_cons.mp hmem with
  | inl heq =>
    rw [heq]
    exact hid
  | inr hp => exact hparent n (Option.mem_toList.mp hp)

end Element

/--
From two numbers on, a text is parsed with the same error or with two roots that differ in their numbers
only. One root has the numbers of the other one under a renaming that keeps their order, and hence never
gives two of them the same name. The markup of both is the same in every style, and as many numbers are used
up.
-/
theorem parseDocument_renamed (limit fresh fresh' : Nat) (text : String) :
    (∃ error, parseDocument limit fresh text = .error error
        ∧ parseDocument limit fresh' text = .error error)
      ∨ ∃ root n root' n' rename, parseDocument limit fresh text = .ok (root, n)
        ∧ parseDocument limit fresh' text = .ok (root', n')
        ∧ StrictMonoOn rename {m | m ∈ root.numbers} ∧ root' = root.renamed rename
        ∧ (∀ style, root'.write style = root.write style)
        ∧ (∀ x ∈ root.all, fresh ≤ x.id ∧ x.id < n) ∧ fresh + n' = fresh' + n := by
  have hfresh := parseDocument_shifted limit 0 fresh text
  have hfresh' := parseDocument_shifted limit 0 fresh' text
  rw [Nat.zero_add] at hfresh hfresh'
  cases horigin : parseDocument limit 0 text with
  | error error =>
    left
    rw [horigin] at hfresh hfresh'
    exact ⟨error, hfresh, hfresh'⟩
  | ok result =>
    right
    obtain ⟨origin, n⟩ := result
    rw [horigin] at hfresh hfresh'
    have hrename : ∀ m, m + fresh - fresh + fresh' = m + fresh' := by
      omega
    refine ⟨origin.shifted fresh, n + fresh, origin.shifted fresh', n + fresh',
      fun m => m - fresh + fresh', hfresh, hfresh', ?_, ?_, ?_, ?_, ?_⟩
    . intro a ha b hb hlt
      have := Element.le_of_mem_numbers_shifted fresh origin a ha
      dsimp only
      omega
    . exact (Element.renamed_shifted hrename origin).symm
    . intro style
      apply Element.write_of_bare
      rw [Element.bare_shifted, Element.bare_shifted]
    . obtain ⟨hgrown, hid⟩ := (Forest.yields_of_parse hfresh).grown
      intro x hx
      have := hgrown.id_le hx
      omega
    . omega

end KmlTree
