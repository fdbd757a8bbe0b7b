import ObjectFlow.Handle
import Std.Data.TreeMap

/-!
# Interning

An interner numbers values in the order in which they first come.  Values are told
apart by a code, a sequence of numbers; when the code of a type leaves something out,
what it leaves out counts only for the value that came first.
-/

namespace ObjectFlow

/-- Types whose values are told apart by a sequence of numbers. -/
class Key (α : Type) where
  code : α → List Nat

/-- Types whose code leaves nothing out. -/
class LawfulKey (α : Type) [Key α] : Prop where
  code_injective : ∀ {a b : α}, Key.code a = Key.code b → a = b

export Key (code)

instance : Key Nat := ⟨fun n => [n]⟩

instance : LawfulKey Nat := ⟨fun h => by simpa [Key.code] using h⟩

instance {kind : Kind} : Key (Handle kind) := ⟨fun handle => [handle.index]⟩

instance {kind : Kind} : LawfulKey (Handle kind) where
  code_injective {a b} h := by
    cases a
    cases b
    simpa [Key.code] using h

instance : Key Site := ⟨fun site => [site.method.index, site.index]⟩

instance : LawfulKey Site where
  code_injective {a b} h := by
    rcases a with ⟨⟨m⟩, i⟩
    rcases b with ⟨⟨n⟩, j⟩
    simpa [Key.code] using h

section

variable {α β : Type} [Key α] [Key β]

/-- The length of the first code says where the second one starts. -/
instance : Key (α × β) := ⟨fun (a, b) => (code a).length :: (code a ++ code b)⟩

instance [LawfulKey α] [LawfulKey β] : LawfulKey (α × β) where
  code_injective {x y} h := by
    obtain ⟨a, b⟩ := x
    obtain ⟨c, d⟩ := y
    simp only [Key.code, List.cons.injEq] at h
    obtain ⟨hfirst, hsecond⟩ := List.append_inj h.2 h.1
    exact Prod.ext (LawfulKey.code_injective hfirst) (LawfulKey.code_injective hsecond)

end

/-- Values in the order in which they first came, with their numbers by code. -/
structure Interner (α : Type) [Key α] where
  items : Array α := #[]
  numbers : Std.TreeMap (List Nat) Nat := {}
  /-- The number of a code is the position of the value with that code. -/
  numbers_iff : ∀ (key : List Nat) (number : Nat),
    numbers[key]? = some number ↔ items[number]?.map code = some key := by simp

namespace Interner

variable {α : Type} [Key α]

/-- No value came yet. -/
def empty : Interner α := {}

@[simp]
theorem items_empty : (empty : Interner α).items = #[] := rfl

def size (interner : Interner α) : Nat := interner.items.size

/-- The values in order. -/
def toList (interner : Interner α) : List α := interner.items.toList

/-- The number of the value with a code. -/
def findCode? (interner : Interner α) (code : List Nat) : Option Nat := interner.numbers[code]?

/-- The number of a value that came before. -/
def find? (interner : Interner α) (a : α) : Option Nat := interner.findCode? (code a)

def contains (interner : Interner α) (a : α) : Bool := (interner.find? a).isSome

/-- The number that a value has, or would get as the next one. -/
def numberOf (interner : Interner α) (a : α) : Nat := (interner.find? a).getD interner.size

/-- A new value takes the next number and leaves the others as they are. -/
theorem numbers_iff_push (interner : Interner α) {a : α} (hnew : ¬ interner.contains a)
    (key : List Nat) (number : Nat) :
    (interner.numbers.insert (code a) interner.size)[key]? = some number ↔
      (interner.items.push a)[number]?.map code = some key := by
  have hfresh : interner.numbers[code a]? = none := by
    simpa [contains, find?, findCode?] using hnew
  have hold := interner.numbers_iff key number
  rw [Std.TreeMap.getElem?_insert, Array.getElem?_push]
  simp only [Std.LawfulEqCmp.compare_eq_iff_eq, size]
  by_cases hkey : code a = key
  · subst hkey
    rw [hfresh] at hold
    by_cases hlast : number = interner.items.size
    · simp [hlast]
    · simp [hlast, Ne.symm hlast, ← hold]
  · by_cases hlast : number = interner.items.size
    · subst hlast
      simpa [hkey] using hold
    · simpa [hkey, hlast] using hold

/-- Adds a value unless it came before. -/
def insert (interner : Interner α) (a : α) : Interner α :=
  if h : interner.contains a then interner
  else
    let number := interner.size
    { items := interner.items.push a
      numbers := interner.numbers.insert (code a) number
      numbers_iff := interner.numbers_iff_push h }

theorem items_insert (interner : Interner α) (a : α) :
    (interner.insert a).items =
      if interner.contains a then interner.items else interner.items.push a := by
  unfold insert
  split <;> rfl

/-- What has a number keeps it. -/
theorem getElem?_items_insert {interner : Interner α} {number : Nat} {b : α}
    (hitem : interner.items[number]? = some b) (a : α) :
    (interner.insert a).items[number]? = some b := by
  rw [items_insert]
  split
  · exact hitem
  · have hlt : number < interner.items.size := (Array.getElem?_eq_some_iff.mp hitem).1
    rw [Array.getElem?_push, if_neg (Nat.ne_of_lt hlt), hitem]

/-- The interner of a list of values. -/
def ofList (values : List α) : Interner α := values.foldl insert empty

end Interner

end ObjectFlow
