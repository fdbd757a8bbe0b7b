import Mathlib.Data.Finset.Card
import Mathlib.Algebra.Order.BigOperators.Group.List
import Mathlib.Algebra.Order.Group.Nat
import ObjectFlow.Proofs.Program.Index

/-!
# The size of a program

`Listing.size` bounds everything that an analysis of the program counts: its tables, the
statements of a method, the arguments of a call, the variables that a method returns and
the statements that go through a variable.
-/

namespace ObjectFlow

/-- The handles below a number. -/
def handlesBelow (kind : Kind) (size : Nat) : Finset (Handle kind) :=
  (Finset.range size).image Handle.mk

theorem mem_handlesBelow {kind : Kind} {size : Nat} {handle : Handle kind} :
    handle ∈ handlesBelow kind size ↔ handle.index < size := by
  constructor
  · intro hmem
    obtain ⟨index, hindex, rfl⟩ := Finset.mem_image.mp hmem
    exact Finset.mem_range.mp hindex
  · intro hlt
    exact Finset.mem_image.mpr ⟨handle.index, Finset.mem_range.mpr hlt, rfl⟩

theorem card_handlesBelow_le (kind : Kind) (size : Nat) : (handlesBelow kind size).card ≤ size :=
  Finset.card_image_le.trans (Finset.card_range size).le

namespace Program

variable {program : Program}

/-- A list without duplicates whose members lie in a finite set is no longer than the set
is large. -/
theorem length_le_of_forall_mem {α : Type} [DecidableEq α] {items : List α} (hnodup : items.Nodup)
    {bound : Finset α} (hmem : ∀ a ∈ items, a ∈ bound) : items.length ≤ bound.card := by
  rw [← List.toFinset_card_of_nodup hnodup]
  exact Finset.card_le_card fun a ha => hmem a (List.mem_toFinset.mp ha)

/-- A list without duplicates of handles of a table is no longer than the table. -/
theorem length_le_of_index_lt {kind : Kind} {handles : List (Handle kind)}
    (hnodup : handles.Nodup) {size : Nat} (hlt : ∀ handle ∈ handles, handle.index < size) :
    handles.length ≤ size :=
  (length_le_of_forall_mem hnodup fun handle hhandle =>
    mem_handlesBelow.mpr (hlt handle hhandle)).trans (card_handlesBelow_le kind size)

theorem length_flatMap_le {α β : Type} {items : List α} {f : α → List β} {a : α} (h : a ∈ items) :
    (f a).length ≤ (items.flatMap f).length := by
  rw [List.length_flatMap]
  exact List.single_le_sum (by simp) _ (List.mem_map_of_mem h)

/-- The tables of a program are no larger than the program. -/
structure Measured (program : Program) : Prop where
  classes : program.listing.classes.size ≤ program.listing.size
  methods : program.listing.methods.size ≤ program.listing.size
  fields : program.listing.fields.size ≤ program.listing.size
  vars : program.listing.vars.size ≤ program.listing.size
  entries : program.entries.length ≤ program.listing.size
  sites : program.listing.sites.length ≤ program.listing.size

theorem measured (program : Program) : program.Measured := by
  constructor <;> simp only [entries, Listing.size] <;> omega

theorem length_sites_le {id : MethodId} {method : Method}
    (h : program.getMethod id = .ok method) : method.sites.length ≤ program.listing.size := by
  have hmem := mem_methods_iff.mpr (id_of_getMethod h ▸ h)
  have hsites : method.sites.length ≤ program.listing.sites.length := length_flatMap_le hmem
  exact hsites.trans program.measured.sites

theorem length_uses_le {site : Site} {stmt : Stmt} (h : program.getStmt site = .ok stmt) :
    stmt.uses.length ≤ program.listing.size := by
  have hmem : (site, stmt) ∈ program.listing.sites := mem_listing_sites_iff.mpr h
  have huses : stmt.uses.length ≤
      (program.listing.sites.flatMap fun item => item.2.uses).length :=
    @length_flatMap_le _ _ _ (fun item : Site × Stmt => item.2.uses) _ hmem
  exact huses.trans (Nat.le_add_left _ _)

theorem length_args_le {site : Site} {call : Call}
    (h : program.getStmt site = .ok (.invoke call)) :
    call.args.length ≤ program.listing.size := by
  have huses := length_uses_le h
  simp only [Stmt.uses, List.length_append] at huses
  omega

theorem length_returnVars_le {method : MethodId} {returned : List VarId}
    (h : program.returnVars method = .ok returned)
    (hlt : method.index < program.listing.methods.size) :
    returned.length ≤ program.listing.size := by
  have hvars : returned.length ≤ program.listing.vars.size := by
    apply length_le_of_index_lt (nodup_returnVars h)
    intro v hv
    obtain ⟨found, hfound, hiff⟩ := exists_returnVars hlt
    rw [h] at hfound
    cases hfound
    obtain ⟨site, stmt, -, hstmt, hvalue⟩ := (hiff v).mp hv
    apply var_lt_of_getStmt hstmt
    cases stmt <;> simp_all [Stmt.returned?, Stmt.uses]
  exact hvars.trans program.measured.vars

theorem length_uses_along_le (program : Program) (v : VarId) (route : Route) :
    ((program.uses v).along route).length ≤ program.listing.size := by
  rw [uses_along, List.length_map]
  exact (List.length_filter_le _ _).trans program.measured.sites

end Program

end ObjectFlow
