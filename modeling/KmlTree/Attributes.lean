/-!
This module contains the bag of attributes that an element carries: an ordered list of pairs of a
name and a value in which no name occurs twice.
-/

namespace KmlTree

/--
A list of attributes with pairwise different names. The order is the one in which the names were
first set.
-/
structure Attributes where
  entries : List (String × String)
  nodup : (entries.map Prod.fst).Nodup
deriving DecidableEq

namespace Attributes

def empty : Attributes := ⟨[], by simp⟩

instance : EmptyCollection Attributes := ⟨empty⟩
instance : Inhabited Attributes := ⟨empty⟩

def names (a : Attributes) : List String := a.entries.map Prod.fst

def size (a : Attributes) : Nat := a.entries.length

def isEmpty (a : Attributes) : Bool := a.entries.isEmpty

def get? (a : Attributes) (name : String) : Option String :=
  a.entries.lookup name

/--
Change the value of `name` in place where it occurs, and append the pair where it does not.
-/
def assign (name value : String) (entries : List (String × String)) : List (String × String) :=
  if name ∈ entries.map Prod.fst then
    entries.map fun entry => if entry.1 = name then (name, value) else entry
  else
    entries ++ [(name, value)]

theorem map_fst_replace (name value : String) (entries : List (String × String)) :
    (entries.map fun entry => if entry.1 = name then (name, value) else entry).map Prod.fst
      = entries.map Prod.fst := by
  rw [List.map_map]
  apply List.map_congr_left
  intro entry _
  by_cases h : entry.1 = name <;> simp [h]

theorem map_fst_assign (name value : String) (entries : List (String × String)) :
    (assign name value entries).map Prod.fst =
      if name ∈ entries.map Prod.fst then
        entries.map Prod.fst
      else
        entries.map Prod.fst ++ [name] := by
  unfold assign
  split
  . exact map_fst_replace name value entries
  . simp

theorem nodup_assign {name value : String} {entries : List (String × String)}
    (h : (entries.map Prod.fst).Nodup) : ((assign name value entries).map Prod.fst).Nodup := by
  rw [map_fst_assign]
  split
  . exact h
  . next hmem =>
    rw [List.nodup_append]
    refine ⟨h, by simp, ?_⟩
    intro a ha b hb
    simp only [List.mem_singleton] at hb
    subst hb
    intro hab
    subst hab
    exact hmem ha

/--
Give the attribute `name` a value. A name that is there already keeps its place.
-/
def set (a : Attributes) (name value : String) : Attributes :=
  ⟨assign name value a.entries, nodup_assign a.nodup⟩

def erase (a : Attributes) (name : String) : Attributes :=
  ⟨a.entries.filter fun entry => entry.1 != name,
   a.nodup.sublist (List.Sublist.map _ List.filter_sublist)⟩

def cut (a : Attributes) (name : String) : Option String × Attributes :=
  (a.get? name, a.erase name)

def setAll (a : Attributes) (pairs : List (String × String)) : Attributes :=
  pairs.foldl (fun a pair => a.set pair.1 pair.2) a

/--
The bag of a list of pairs. A name that is repeated keeps its first place and its last value.
-/
def ofList (pairs : List (String × String)) : Attributes :=
  setAll empty pairs

/--
Copy every attribute of `b` into `a`. Where both have a value, the one of `b` wins.
-/
def merge (a b : Attributes) : Attributes :=
  a.setAll b.entries

def set? (a : Attributes) (name : String) : Option String → Attributes
  | some value => a.set name value
  | none => a

def same (a b : Attributes) : Bool :=
  a.size == b.size && a.entries.all fun entry => b.get? entry.1 == some entry.2

end Attributes

end KmlTree
