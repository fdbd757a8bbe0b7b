import ObjectFlow.Proofs.Program.Tables

/-!
# Variables and their methods

Every variable names the method that it belongs to.  A program is local when its methods
mention no variables but their own.  No check of a listing asks for that, and the index of
uses does not know methods, so that what relies on it has to say so.
-/

namespace ObjectFlow

/-- The variables that a method mentions: its receiver, its parameters and the operands of its
statements. -/
def Method.vars (method : Method) : List VarId :=
  method.this.toList ++ method.params ++
    method.stmts.toList.flatMap fun stmt => stmt.uses ++ stmt.writes?.toList

namespace Program

variable {program : Program} {id : MethodId} {v : VarId} {method : Method}

/-- Methods mention only their own variables. -/
def Local (program : Program) : Prop :=
  ∀ method ∈ program.listing.methods.toList, ∀ v ∈ method.vars,
    program.listing.vars[v.index]?.map Var.method = some method.id

instance (program : Program) : Decidable program.Local :=
  inferInstanceAs (Decidable (∀ method ∈ program.listing.methods.toList, ∀ v ∈ method.vars,
    program.listing.vars[v.index]?.map Var.method = some method.id))

/-- `program.Mentions id v`: the method `id` mentions the variable `v`. -/
def Mentions (program : Program) (id : MethodId) (v : VarId) : Prop :=
  ∃ method, program.getMethod id = .ok method ∧ v ∈ method.vars

theorem Local.owner (h : program.Local) (hmentions : program.Mentions id v) :
    program.listing.vars[v.index]?.map Var.method = some id := by
  obtain ⟨method, hmethod, hv⟩ := hmentions
  have hentry := getMethod_eq_ok_iff.mp hmethod
  have hmem : method ∈ program.listing.methods.toList :=
    List.mem_iff_getElem?.mpr ⟨id.index, by simpa using hentry⟩
  rw [h method hmem v hv, id_of_getMethod hmethod]

/-- No two methods of a local program mention one variable. -/
theorem Local.eq_of_mentions (h : program.Local) {id' : MethodId}
    (hmentions : program.Mentions id v) (hmentions' : program.Mentions id' v) : id = id' := by
  have howner := h.owner hmentions
  rw [h.owner hmentions'] at howner
  exact (Option.some.inj howner).symm

theorem mentions_of_getStmt {site : Site} {stmt : Stmt} (hstmt : program.getStmt site = .ok stmt)
    (hv : v ∈ stmt.uses ++ stmt.writes?.toList) : program.Mentions site.method v := by
  obtain ⟨method, hmethod, hentry⟩ := getStmt_eq_ok_iff.mp hstmt
  refine ⟨method, hmethod, List.mem_append_right _ (List.mem_flatMap.mpr ⟨stmt, ?_, hv⟩)⟩
  exact Array.mem_toList_iff.mpr (Array.mem_iff_getElem?.mpr ⟨_, hentry⟩)

theorem mentions_of_local (hmethod : program.getMethod id = .ok method)
    (hv : v ∈ method.this.toList ++ method.params) : program.Mentions id v :=
  ⟨method, hmethod, List.mem_append_left _ hv⟩

end Program

end ObjectFlow
