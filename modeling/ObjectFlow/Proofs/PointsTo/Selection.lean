import ObjectFlow.PointsTo.Context
import ObjectFlow.Proofs.Interner

/-!
# Selected contexts

A policy works on the sequences that contexts stand for: it appends a part and cuts the
sequence to its last parts.  The tables of contexts only serve to number the sequences.
Each selection is a function on sequences, `Policy.heapParts`, `Policy.staticParts` and
`Policy.instanceParts`, that works for parts of any kind, so that it can be compared with
what contexts mean outside of a run.
-/

namespace ObjectFlow.PointsTo

namespace Contexts

@[simp]
theorem lastOf_zero {ε : Type} (elems : List ε) : lastOf 0 elems = [] := by
  simp [lastOf]

theorem lastOf_of_length_le {ε : Type} {limit : Nat} {elems : List ε}
    (h : elems.length ≤ limit) : lastOf limit elems = elems := by
  simp [lastOf, Nat.sub_eq_zero_of_le h]

theorem lastOf_lastOf {ε : Type} (m n : Nat) (elems : List ε) :
    lastOf m (lastOf n elems) = lastOf (min m n) elems := by
  simp only [lastOf, List.drop_drop, List.length_drop]
  congr 1
  omega

theorem length_lastOf_le {ε : Type} (limit : Nat) (elems : List ε) :
    (lastOf limit elems).length ≤ limit := by
  simp only [lastOf, List.length_drop]
  omega

theorem mem_of_mem_lastOf {ε : Type} {limit : Nat} {elems : List ε} {e : ε}
    (h : e ∈ lastOf limit elems) : e ∈ elems :=
  List.mem_of_mem_drop h

/-- A selection succeeds: it numbers one sequence and changes nothing else. -/
def Selects (contexts : Contexts) (outcome : Except Fault (Contexts × ContextId))
    (parts : List ContextElem) : Prop :=
  ∃ contexts' id, outcome = .ok (contexts', id) ∧ contexts.table.Extends contexts'.table ∧
    contexts'.table.items[id.index]? = some parts ∧
    ∀ elems ∈ contexts'.table.items, elems ∈ contexts.table.items ∨ elems = parts

theorem elements_eq_ok_iff {contexts : Contexts} {id : ContextId} {parts : List ContextElem} :
    contexts.elements id = .ok parts ↔ contexts.table.items[id.index]? = some parts :=
  Handle.lookup_eq_ok_iff

theorem selects_intern (contexts : Contexts) (parts : List ContextElem) :
    contexts.Selects (.ok (contexts.intern parts)) parts :=
  ⟨_, _, rfl, contexts.table.extends_insert parts, contexts.table.getElem?_numberOf parts,
    fun _ h => Interner.mem_insert_cases h⟩

theorem selects_self {contexts : Contexts} {id : ContextId} {parts : List ContextElem}
    (hparts : contexts.table.items[id.index]? = some parts) :
    contexts.Selects (.ok (contexts, id)) parts :=
  ⟨contexts, id, rfl, Interner.Extends.refl _, hparts, fun _ h => .inl h⟩

theorem selects_append {contexts : Contexts} {id : ContextId} {parts : List ContextElem}
    (hparts : contexts.table.items[id.index]? = some parts) (elem : ContextElem) (limit : Nat) :
    contexts.Selects (contexts.append id elem limit) (lastOf limit (parts ++ [elem])) := by
  unfold append
  split
  next hzero =>
    subst hzero
    rw [lastOf_zero]
    exact selects_self contexts.root_eq
  · rw [elements_eq_ok_iff.mpr hparts]
    exact selects_intern contexts _

theorem selects_truncate {contexts : Contexts} {id : ContextId} {parts : List ContextElem}
    (hparts : contexts.table.items[id.index]? = some parts) (limit : Nat) :
    contexts.Selects (contexts.truncate id limit) (lastOf limit parts) := by
  unfold truncate
  rw [elements_eq_ok_iff.mpr hparts, ok_bind]
  split
  next hshort =>
    rw [lastOf_of_length_le hshort]
    exact selects_self hparts
  · exact selects_intern contexts _

/-- Interning a sequence that has a number changes nothing. -/
theorem intern_of_getElem? {contexts : Contexts} {id : ContextId} {parts : List ContextElem}
    (hparts : contexts.table.items[id.index]? = some parts) :
    contexts.intern parts = (contexts, id) := by
  have hmem : parts ∈ contexts.table.items := Array.mem_iff_getElem?.mpr ⟨_, hparts⟩
  obtain ⟨table, hroot⟩ := contexts
  simp only [intern, Interner.insert_of_mem hmem, Interner.numberOf_eq_of_getElem? hparts]

theorem eq_of_getElem? {contexts : Contexts} {id other : ContextId} {parts : List ContextElem}
    (h : contexts.table.items[id.index]? = some parts)
    (h' : contexts.table.items[other.index]? = some parts) : id = other :=
  Handle.ext (Interner.getElem?_injective h h')

theorem append_of_getElem? {contexts : Contexts} {id selected : ContextId}
    {parts : List ContextElem} {elem : ContextElem} {limit : Nat}
    (hparts : contexts.table.items[id.index]? = some parts)
    (hselected : contexts.table.items[selected.index]? = some (lastOf limit (parts ++ [elem]))) :
    contexts.append id elem limit = .ok (contexts, selected) := by
  unfold append
  split
  next hzero =>
    subst hzero
    rw [lastOf_zero] at hselected
    rw [eq_of_getElem? hselected contexts.root_eq]
    rfl
  · rw [elements_eq_ok_iff.mpr hparts, ok_bind, intern_of_getElem? hselected, pure_eq_ok]

theorem truncate_of_getElem? {contexts : Contexts} {id selected : ContextId}
    {parts : List ContextElem} {limit : Nat}
    (hparts : contexts.table.items[id.index]? = some parts)
    (hselected : contexts.table.items[selected.index]? = some (lastOf limit parts)) :
    contexts.truncate id limit = .ok (contexts, selected) := by
  unfold truncate
  rw [elements_eq_ok_iff.mpr hparts, ok_bind]
  split
  next hshort =>
    rw [lastOf_of_length_le hshort] at hselected
    rw [eq_of_getElem? hselected hparts, pure_eq_ok]
  · rw [intern_of_getElem? hselected, pure_eq_ok]

end Contexts

namespace Policy

open Contexts (lastOf Selects)

section

variable {ε : Type}

/-- The context of an object that a method under `caller` allocates. -/
def heapParts (policy : Policy) (caller : List ε) : List ε :=
  match policy.strategy with
  | .insensitive => []
  | _ => lastOf policy.heapDepth caller

/-- The context of a method that is called at `site` without receiver. -/
def staticParts (policy : Policy) (caller : List ε) (site : ε) : List ε :=
  match policy.strategy with
  | .insensitive => []
  | .callSite k => lastOf k (caller ++ [site])
  | _ => caller

/-- The context of a method that is called at `site` on an object with the context
`heap`, where `object` and `type` are the parts that stand for the receiver. -/
def instanceParts (policy : Policy) (caller heap : List ε) (site object type : ε) : List ε :=
  match policy.strategy with
  | .insensitive => []
  | .callSite k => lastOf k (caller ++ [site])
  | .object k => lastOf k (heap ++ [object])
  | .type k => lastOf k (heap ++ [type])

end

variable {policy : Policy} {contexts : Contexts} {context : ContextId} {parts : List ContextElem}

theorem selects_heapContext (policy : Policy)
    (hparts : contexts.table.items[context.index]? = some parts) :
    Selects contexts (policy.heapContext contexts context) (policy.heapParts parts) := by
  unfold heapContext heapParts
  cases policy.strategy with
  | insensitive => exact Contexts.selects_self contexts.root_eq
  | _ => exact Contexts.selects_truncate hparts _

theorem selects_staticContext (policy : Policy)
    (hparts : contexts.table.items[context.index]? = some parts) (site : Site) :
    Selects contexts (policy.staticContext contexts context site)
      (policy.staticParts parts (.callSite site)) := by
  unfold staticContext staticParts
  cases policy.strategy with
  | insensitive => exact Contexts.selects_self contexts.root_eq
  | callSite k => exact Contexts.selects_append hparts _ _
  | object k => exact Contexts.selects_self hparts
  | type k => exact Contexts.selects_self hparts

/-- The parts that an instance call selects on a receiver. -/
def receiverParts (policy : Policy) (caller heap : List ContextElem) (site : Site)
    (receiver : Receiver) : List ContextElem :=
  policy.instanceParts caller heap (.callSite site) (.object receiver.object)
    (.type receiver.allocClass)

theorem selects_instanceContext (policy : Policy)
    (hparts : contexts.table.items[context.index]? = some parts) (site : Site)
    {receiver : Receiver} {heap : List ContextElem}
    (hheap : contexts.table.items[receiver.heapContext.index]? = some heap) :
    Selects contexts (policy.instanceContext contexts context site receiver)
      (policy.receiverParts parts heap site receiver) := by
  unfold instanceContext receiverParts instanceParts
  cases policy.strategy with
  | insensitive => exact Contexts.selects_self contexts.root_eq
  | callSite k => exact Contexts.selects_append hparts _ _
  | object k => exact Contexts.selects_append hheap _ _
  | type k => exact Contexts.selects_append hheap _ _

/-- Selecting again what was selected before changes nothing. -/
theorem heapContext_of_getElem? {selected : ContextId}
    (hparts : contexts.table.items[context.index]? = some parts)
    (hselected : contexts.table.items[selected.index]? = some (policy.heapParts parts)) :
    policy.heapContext contexts context = .ok (contexts, selected) := by
  unfold heapContext
  unfold heapParts at hselected
  cases hstrategy : policy.strategy <;> rw [hstrategy] at hselected
  case insensitive => rw [Contexts.eq_of_getElem? hselected contexts.root_eq]; rfl
  all_goals exact Contexts.truncate_of_getElem? hparts hselected

theorem staticContext_of_getElem? {selected : ContextId} {site : Site}
    (hparts : contexts.table.items[context.index]? = some parts)
    (hselected : contexts.table.items[selected.index]? =
      some (policy.staticParts parts (.callSite site))) :
    policy.staticContext contexts context site = .ok (contexts, selected) := by
  unfold staticContext
  unfold staticParts at hselected
  cases hstrategy : policy.strategy <;> rw [hstrategy] at hselected
  case insensitive => rw [Contexts.eq_of_getElem? hselected contexts.root_eq]; rfl
  case callSite k => exact Contexts.append_of_getElem? hparts hselected
  all_goals rw [Contexts.eq_of_getElem? hselected hparts]

theorem instanceContext_of_getElem? {selected : ContextId} {site : Site} {receiver : Receiver}
    {heap : List ContextElem}
    (hparts : contexts.table.items[context.index]? = some parts)
    (hheap : contexts.table.items[receiver.heapContext.index]? = some heap)
    (hselected : contexts.table.items[selected.index]? =
      some (policy.receiverParts parts heap site receiver)) :
    policy.instanceContext contexts context site receiver = .ok (contexts, selected) := by
  unfold instanceContext
  unfold receiverParts instanceParts at hselected
  cases hstrategy : policy.strategy <;> rw [hstrategy] at hselected
  case insensitive => rw [Contexts.eq_of_getElem? hselected contexts.root_eq]; rfl
  case callSite k => exact Contexts.append_of_getElem? hparts hselected
  all_goals exact Contexts.append_of_getElem? hheap hselected

section Depth

variable {ε : Type}

/-- No selection makes a context deeper than the policy allows. -/
theorem length_heapParts_le {caller : List ε} (h : caller.length ≤ policy.strategy.depth) :
    (policy.heapParts caller).length ≤ policy.strategy.depth := by
  have hcut : (lastOf policy.heapDepth caller).length ≤ caller.length := by
    simp [lastOf]
  unfold heapParts
  cases hstrategy : policy.strategy <;> simp_all <;> omega

theorem length_staticParts_le {caller : List ε} (h : caller.length ≤ policy.strategy.depth)
    (site : ε) : (policy.staticParts caller site).length ≤ policy.strategy.depth := by
  unfold staticParts
  cases hstrategy : policy.strategy <;> rw [hstrategy] at h
  case insensitive => simp
  case callSite k => exact Contexts.length_lastOf_le k _
  all_goals exact h

theorem length_instanceParts_le (policy : Policy) (caller heap : List ε) (site object type : ε) :
    (policy.instanceParts caller heap site object type).length ≤ policy.strategy.depth := by
  unfold instanceParts
  cases policy.strategy with
  | insensitive => simp
  | _ => exact Contexts.length_lastOf_le _ _

/-- Every part of a selected context was there before or is the part that was added. -/
theorem mem_of_mem_heapParts {caller : List ε} {elem : ε} (h : elem ∈ policy.heapParts caller) :
    elem ∈ caller := by
  unfold heapParts at h
  cases hstrategy : policy.strategy <;> rw [hstrategy] at h
  case insensitive => cases h
  all_goals exact Contexts.mem_of_mem_lastOf h

theorem mem_of_mem_staticParts {caller : List ε} {site elem : ε}
    (h : elem ∈ policy.staticParts caller site) : elem ∈ caller ∨ elem = site := by
  unfold staticParts at h
  cases hstrategy : policy.strategy <;> rw [hstrategy] at h
  case insensitive => cases h
  case callSite k => simpa using Contexts.mem_of_mem_lastOf h
  all_goals exact .inl h

theorem mem_of_mem_instanceParts {caller heap : List ε} {site object type elem : ε}
    (h : elem ∈ policy.instanceParts caller heap site object type) :
    elem ∈ caller ∨ elem ∈ heap ∨ elem = site ∨ elem = object ∨ elem = type := by
  unfold instanceParts at h
  cases hstrategy : policy.strategy <;> rw [hstrategy] at h
  case insensitive => cases h
  all_goals
    have hmem := Contexts.mem_of_mem_lastOf h
    simp only [List.mem_append, List.mem_singleton] at hmem
    tauto

end Depth

end Policy

end ObjectFlow.PointsTo
