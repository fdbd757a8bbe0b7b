/-!
# Sets as ascending lists

A finite set is kept as the ascending list of its members, so that two sets with the
same members are equal and the members are visited in order.  The operations walk once
over their lists and build ascending lists from ascending lists.

Look-ups and insertions are linear walks, and a merge drops one of two equal heads.  On
ascending lists they give the answers of a binary search and of a merge that moves along both
lists.  On lists that are out of order or have repetitions the two may differ, so that what
is said of `contains`, `add` and `addAll` is said of ascending lists.
-/

namespace ObjectFlow

structure SortedSet (α : Type) where
  elements : List α := []
  deriving DecidableEq, Repr

namespace SortedSet

variable {α : Type}

/-- The members in ascending order. -/
def toList (set : SortedSet α) : List α := set.elements

def empty : SortedSet α := {}

def singleton (a : α) : SortedSet α := ⟨[a]⟩

def size (set : SortedSet α) : Nat := set.elements.length

def isEmpty (set : SortedSet α) : Bool := set.elements.isEmpty

section

variable [DecidableEq α]

def contains (set : SortedSet α) (a : α) : Bool := set.elements.contains a

def erase (set : SortedSet α) (a : α) : SortedSet α := ⟨set.elements.filter (· ≠ a)⟩

end

section

variable [LT α] [DecidableLT α] [DecidableEq α]

/-- Puts a member before the first larger one. -/
def insertInto (a : α) : List α → List α
  | [] => [a]
  | b :: rest => if a < b then a :: b :: rest else if a = b then b :: rest else b :: insertInto a rest

def insert (set : SortedSet α) (a : α) : SortedSet α := ⟨insertInto a set.elements⟩

/-- Inserts a member, and tells whether it is new. -/
def add (set : SortedSet α) (a : α) : SortedSet α × Bool :=
  if set.contains a then (set, false) else (set.insert a, true)

def ofList (members : List α) : SortedSet α := members.foldl insert empty

/-- Merges a member and what `rest` makes of the larger ones into a list. -/
def mergeHead (a : α) (rest : List α → List α) : List α → List α
  | [] => a :: rest []
  | b :: others =>
    if a < b then a :: rest (b :: others)
    else if a = b then a :: rest others
    else b :: mergeHead a rest others

/-- Merges two lists. -/
def merge (members others : List α) : List α := members.foldr mergeHead id others

/-- The members that are not in the other list. -/
def subtract : List α → List α → List α
  | [], _ => []
  | a :: members, others =>
    match others.dropWhile (· < a) with
    | [] => a :: members
    | b :: others => if a = b then subtract members others else a :: subtract members (b :: others)

/-- Whether two lists have a common member. -/
def overlap : List α → List α → Bool
  | [], _ => false
  | a :: members, others =>
    match others.dropWhile (· < a) with
    | [] => false
    | b :: others => a = b || overlap members (b :: others)

def union (set other : SortedSet α) : SortedSet α := ⟨merge set.elements other.elements⟩

/-- The members that `other` does not have. -/
def difference (set other : SortedSet α) : SortedSet α := ⟨subtract set.elements other.elements⟩

/-- Adds the members of another set, and gives those that are new. -/
def addAll (set other : SortedSet α) : SortedSet α × SortedSet α :=
  let added := other.difference set
  if added.isEmpty then (set, added) else (set.union added, added)

def intersects (set other : SortedSet α) : Bool := overlap set.elements other.elements

/-- A larger set is no subset, which saves the walk over the lists. -/
def isSubset (set other : SortedSet α) : Bool :=
  set.size ≤ other.size && (set.difference other).isEmpty

end

end SortedSet

end ObjectFlow
