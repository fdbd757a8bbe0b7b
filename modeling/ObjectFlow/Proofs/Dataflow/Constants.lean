import ObjectFlow.Dataflow.Constants
import ObjectFlow.Proofs.ControlFlow
import ObjectFlow.Proofs.Dataflow.Value
import ObjectFlow.Proofs.Program.Tables

/-!
# Facts of constant propagation

On the variables and statements of a program the transfer functions of constant
propagation never fault, and they keep facts in normal form.
-/

namespace ObjectFlow.Dataflow.Constants

variable {program : Program} {site : Site} {stmt : Stmt}

theorem tracks_of_lt {v : VarId} (h : v.index < program.listing.vars.size) :
    tracks program v = .ok (program.holdsInt v) := by
  obtain ⟨var, hlookup, hentry⟩ := Handle.exists_lookup h
  have hvar : program.getVar v = .ok var := hlookup
  simp [tracks, hvar, Program.holdsInt, hentry]

theorem writes_lt {lhs : VarId} (hstmt : program.getStmt site = .ok stmt)
    (hlhs : stmt.writes? = some lhs) : lhs.index < program.listing.vars.size :=
  Program.var_lt_of_getStmt hstmt (by simp [hlhs])

theorem tracksWritten_of_getStmt (hstmt : program.getStmt site = .ok stmt) :
    tracksWritten program stmt = .ok (stmt.writes?.any program.holdsInt) := by
  unfold tracksWritten
  cases hlhs : stmt.writes? with
  | none => rfl
  | some lhs => exact tracks_of_lt (writes_lt hstmt hlhs)

theorem transfer_ofSite (hstmt : program.getStmt site = .ok stmt) :
    transfer program (.ofSite site) =
      .ok (transferStmt (stmt.writes?.any program.holdsInt) stmt) := by
  have hsite : (Node.ofSite site).site? = some site := Node.site?_eq_some_iff.mpr rfl
  simp [transfer, hsite, hstmt, tracksWritten_of_getStmt hstmt]

theorem tidy_transferStmt {tracked : Bool} {fact : Fact}
    (h : fact.Tidy program.listing.vars.size) (hstmt : program.getStmt site = .ok stmt) :
    (transferStmt tracked stmt fact).Tidy program.listing.vars.size := by
  unfold transferStmt
  split
  · next lhs hlhs =>
    split
    · exact h.update (writes_lt hstmt hlhs) _
    · exact h
  · exact h

theorem exists_foldlM_boundary {params : List VarId} {fact : Fact}
    (h : ∀ param ∈ params, param.index < program.listing.vars.size)
    (hfact : fact.Tidy program.listing.vars.size) :
    ∃ final, params.foldlM (fun fact param => do
        return if ← tracks program param then fact.update param .nac else fact) fact =
          .ok final ∧ final.Tidy program.listing.vars.size ∧ fact ≤ final ∧
      ∀ param ∈ params, program.holdsInt param = true → final.get param = .nac := by
  induction params generalizing fact with
  | nil => exact ⟨fact, rfl, hfact, le_refl _, by simp⟩
  | cons param params ih =>
    obtain ⟨hparam, hrest⟩ := List.forall_mem_cons.mp h
    let next := if program.holdsInt param then fact.update param .nac else fact
    have hnext : next.Tidy program.listing.vars.size := by
      unfold next
      split
      · exact hfact.update hparam _
      · exact hfact
    have hgrows : fact ≤ next := by
      intro v
      unfold next
      split
      · by_cases hv : v = param <;> simp [hv]
      · exact le_refl _
    obtain ⟨final, hfold, htidy, hfrom, hparams⟩ := ih hrest hnext
    refine ⟨final, ?_, htidy, hgrows.trans hfrom, fun other hother hint => ?_⟩
    · simp only [List.foldlM_cons, tracks_of_lt hparam, ok_bind, pure_eq_ok] at hfold ⊢
      exact hfold
    · rcases List.mem_cons.mp hother with rfl | hother
      · have hle := hfrom other
        simp only [next, hint, if_true, Fact.get_update] at hle
        exact le_antisymm (Value.le_nac _) hle
      · exact hparams other hother hint

/-- At the entry of a method its parameters for small numbers have any value. -/
theorem exists_boundaryFact {id : MethodId} {method : Method}
    (hmethod : program.getMethod id = .ok method) :
    ∃ fact, boundaryFact program id = .ok fact ∧ fact.Tidy program.listing.vars.size ∧
      ∀ param ∈ method.params, program.holdsInt param = true → fact.get param = .nac := by
  have hparams : ∀ param ∈ method.params, param.index < program.listing.vars.size :=
    fun param hparam => program.inRange.method_local (Program.getMethod_eq_ok_iff.mp hmethod) _
      (by simp [hparam])
  obtain ⟨fact, hfold, htidy, -, hnac⟩ := exists_foldlM_boundary hparams Fact.tidy_empty
  exact ⟨fact, by rw [boundaryFact, hmethod, ok_bind, hfold], htidy, hnac⟩

/-- Only variables for small numbers have a value. -/
def Numeric (program : Program) (fact : Fact) : Prop :=
  ∀ v, fact.get v ≠ .undefined → program.holdsInt v = true

theorem numeric_empty : Numeric program {} := Fact.only_empty

theorem Numeric.update {fact : Fact} (h : Numeric program fact) {v : VarId}
    (hv : program.holdsInt v = true) (value : Value) : Numeric program (fact.update v value) :=
  Fact.Only.update h fun _ => hv

theorem Numeric.meetInto {fact target : Fact} (h : Numeric program fact)
    (hcanonical : fact.Canonical) (htarget : Numeric program target) :
    Numeric program (fact.meetInto target) :=
  Fact.Only.meetInto h hcanonical htarget

/-- A statement gives a value only to a variable for small numbers. -/
theorem only_transferStmt {set : VarId → Prop}
    (hset : ∀ v, program.holdsInt v = true → set v) {fact : Fact} (h : fact.Only set)
    (stmt : Stmt) : (transferStmt (stmt.writes?.any program.holdsInt) stmt fact).Only set := by
  rw [Constants.transferStmt]
  cases stmt.writes? with
  | none => exact h
  | some lhs =>
    cases hlhs : program.holdsInt lhs with
    | false => simpa [hlhs] using h
    | true => simpa [hlhs] using h.update fun _ => hset lhs hlhs

theorem Numeric.transferStmt {fact : Fact} (h : Numeric program fact) (stmt : Stmt) :
    Numeric program (transferStmt (stmt.writes?.any program.holdsInt) stmt fact) :=
  only_transferStmt (fun _ hint => hint) h stmt

theorem holdsInt_of_tracks {v : VarId} (h : tracks program v = .ok true) :
    program.holdsInt v = true := by
  obtain ⟨var, hvar, htype⟩ := bind_eq_ok_iff.mp h
  have hentry := Handle.lookup_eq_ok_iff.mp hvar
  simp only [pure_eq_ok, Except.ok.injEq] at htype
  simp [Program.holdsInt, hentry, htype]

theorem numeric_foldlM_boundary {params : List VarId} {start fact : Fact}
    (h : params.foldlM (fun fact param => do
      return if ← tracks program param then fact.update param .nac else fact) start = .ok fact)
    (hstart : Numeric program start) : Numeric program fact := by
  induction params generalizing start with
  | nil =>
    cases h
    exact hstart
  | cons param params ih =>
    rw [List.foldlM_cons] at h
    obtain ⟨next, hnext, hrest⟩ := bind_eq_ok_iff.mp h
    obtain ⟨tracked, htracked, hpure⟩ := bind_eq_ok_iff.mp hnext
    cases hpure
    apply ih hrest
    cases tracked with
    | false => exact hstart
    | true => exact hstart.update (holdsInt_of_tracks htracked) .nac

theorem numeric_boundaryFact {id : MethodId} {fact : Fact}
    (h : boundaryFact program id = .ok fact) : Numeric program fact := by
  obtain ⟨method, -, hfold⟩ := bind_eq_ok_iff.mp h
  exact numeric_foldlM_boundary hfold numeric_empty

end ObjectFlow.Dataflow.Constants
