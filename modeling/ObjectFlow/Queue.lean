/-!
# Queues

First come, first served.  What came last waits in reverse order until the front is
used up.
-/

namespace ObjectFlow

structure Queue (α : Type) where
  front : List α := []
  back : List α := []
  deriving DecidableEq, Repr

namespace Queue

variable {α : Type}

/-- The waiting items, the next one first. -/
def toList (queue : Queue α) : List α := queue.front ++ queue.back.reverse

def size (queue : Queue α) : Nat := queue.front.length + queue.back.length

def push (queue : Queue α) (a : α) : Queue α := { queue with back := a :: queue.back }

/-- The next item and the queue without it. -/
def pop? (queue : Queue α) : Option (α × Queue α) :=
  match queue.front with
  | a :: front => some (a, { queue with front })
  | [] =>
    match queue.back.reverse with
    | a :: front => some (a, { front })
    | [] => none

@[simp]
theorem toList_push (queue : Queue α) (a : α) : (queue.push a).toList = queue.toList ++ [a] := by
  simp [push, toList]

theorem pop?_eq_none_iff (queue : Queue α) : queue.pop? = none ↔ queue.toList = [] := by
  obtain ⟨front, back⟩ := queue
  cases front with
  | cons a front => simp [pop?, toList]
  | nil =>
    cases h : back.reverse <;> simp [pop?, toList, h]

theorem toList_of_pop? {queue rest : Queue α} {a : α} (hpop : queue.pop? = some (a, rest)) :
    queue.toList = a :: rest.toList := by
  obtain ⟨front, back⟩ := queue
  cases front with
  | cons b front =>
    simp only [pop?, Option.some.injEq, Prod.mk.injEq] at hpop
    simp [toList, ← hpop.1, ← hpop.2]
  | nil =>
    cases h : back.reverse with
    | nil => simp [pop?, h] at hpop
    | cons b front =>
      simp only [pop?, h, Option.some.injEq, Prod.mk.injEq] at hpop
      simp [toList, h, ← hpop.1, ← hpop.2]

end Queue

end ObjectFlow
