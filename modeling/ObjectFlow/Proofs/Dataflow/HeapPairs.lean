import ObjectFlow.Proofs.Dataflow.InterSoundness

/-!
# Loads and stores find each other

After the buckets are filled, every access has a row with all accesses that do the converse to
an object that both may go to.  A load finds a store exactly when the store finds the load, so that
a store whose fact changes has every load visited that reads it.
-/

namespace ObjectFlow.Dataflow

variable {program : Program} {calls : CallGraph Site MethodId} {graph : Supergraph}
  {result : PointsTo.Result} {aliases : HeapAliases}

namespace InterConstants

/-- Two variables may point to a common object. -/
def MayMeet (result : PointsTo.Result) (base base' : VarId) : Prop :=
  ∃ objects objects' object, result.pointsTo base = .ok objects ∧
    result.pointsTo base' = .ok objects' ∧ object ∈ objects ∧ object ∈ objects'

end InterConstants

open InterConstants (MayMeet)

namespace HeapAliases

variable {site other : Site} {stmt : Stmt} {base : VarId} {access : HeapAccess}

/-- The partners of an access do the converse through a variable that may point to a common
object. -/
theorem mem_partnersOf_iff_mayMeet (h : Supergraph.Built program calls graph)
    (hbuild : build graph result = .ok aliases) (hstmt : program.getStmt site = .ok stmt)
    (hthrough : access.Through base stmt) :
    other ∈ aliases.partnersOf site ↔ site.method ∈ graph.methods ∧ other.method ∈ graph.methods ∧
      ∃ stmt' base', program.getStmt other = .ok stmt' ∧ access.partner.Through base' stmt' ∧
        MayMeet result base base' := by
  rw [h.methods_eq, mem_partnersOf_iff h hbuild]
  have haccess := HeapAccess.ofStmt?_eq_some_iff.mpr hthrough
  constructor
  · rintro ⟨access', objects, objects', object, ⟨hsite, found, base₁, hfound, haccess', hobjects⟩,
      ⟨hother, stmt', base', hstmt', hpartner, hobjects'⟩, hmeet⟩
    cases hstmt.symm.trans hfound
    cases haccess.symm.trans haccess'
    exact ⟨hsite, hother, stmt', base', hstmt', HeapAccess.ofStmt?_eq_some_iff.mp hpartner,
      objects, objects', object, hobjects, hobjects', hmeet⟩
  · rintro ⟨hsite, hother, stmt', base', hstmt', hpartner, objects, objects', object, hobjects,
      hobjects', hmeet⟩
    exact ⟨access, objects, objects', object, ⟨hsite, stmt, base, hstmt, haccess, hobjects⟩,
      ⟨hother, stmt', base', hstmt', HeapAccess.ofStmt?_eq_some_iff.mpr hpartner, hobjects'⟩, hmeet⟩

/-- A statement that is no access has no partners. -/
theorem partnersOf_eq_nil (h : Supergraph.Built program calls graph)
    (hbuild : build graph result = .ok aliases)
    (hnone : ∀ stmt, program.getStmt site = .ok stmt → HeapAccess.ofStmt? stmt = none) :
    aliases.partnersOf site = [] := by
  rw [List.eq_nil_iff_forall_not_mem]
  intro other hother
  obtain ⟨access, objects, objects', object, ⟨-, stmt, base, hstmt, haccess, -⟩, -⟩ :=
    (mem_partnersOf_iff h hbuild).mp hother
  rw [hnone stmt hstmt] at haccess
  cases haccess

/-- Partners stand in ascending order, each once. -/
theorem pairwise_partnersOf (h : Supergraph.Built program calls graph)
    (hbuild : build graph result = .ok aliases) (site : Site) :
    (aliases.partnersOf site).Pairwise (· < ·) := by
  obtain ⟨found, hfound, hpure⟩ := bind_eq_ok_iff.mp hbuild
  cases hpure
  by_cases hsite : ∃ a ∈ found, a.site = site
  · obtain ⟨a, ha, rfl⟩ := hsite
    rw [partnersOf_of_mem h hfound ha]
    exact SortedSet.ascending_ofList _
  · rw [partnersOf_of_not_mem fun a ha heq => hsite ⟨a, ha, heq⟩]
    exact List.Pairwise.nil

end HeapAliases

namespace InterConstants

/-- Each access has all that it may meet in its row.  The row of a load has stores and the row of
a store has loads, under one condition. -/
structure Pairs (program : Program) (result : PointsTo.Result) (graph : Supergraph)
    (aliases : HeapAliases) : Prop where
  fieldLoad : ∀ load lhs base field, program.getStmt load = .ok (.loadField lhs (some base) field) →
    ∀ store, store ∈ aliases.partnersOf load ↔
      load.method ∈ graph.methods ∧ store.method ∈ graph.methods ∧
        ∃ base' rhs, program.getStmt store = .ok (.storeField (some base') field rhs) ∧
          MayMeet result base base'
  fieldStore : ∀ store base field rhs,
    program.getStmt store = .ok (.storeField (some base) field rhs) →
    ∀ load, load ∈ aliases.partnersOf store ↔
      store.method ∈ graph.methods ∧ load.method ∈ graph.methods ∧
        ∃ base' lhs, program.getStmt load = .ok (.loadField lhs (some base') field) ∧
          MayMeet result base base'
  arrayLoad : ∀ load lhs base index, program.getStmt load = .ok (.loadArray lhs base index) →
    ∀ store, store ∈ aliases.partnersOf load ↔
      load.method ∈ graph.methods ∧ store.method ∈ graph.methods ∧
        ∃ base' slot rhs, program.getStmt store = .ok (.storeArray base' slot rhs) ∧
          MayMeet result base base'
  arrayStore : ∀ store base index rhs, program.getStmt store = .ok (.storeArray base index rhs) →
    ∀ load, load ∈ aliases.partnersOf store ↔
      store.method ∈ graph.methods ∧ load.method ∈ graph.methods ∧
        ∃ base' lhs slot, program.getStmt load = .ok (.loadArray lhs base' slot) ∧
          MayMeet result base base'
  other : ∀ site, (∀ stmt, program.getStmt site = .ok stmt → HeapAccess.ofStmt? stmt = none) →
    aliases.partnersOf site = []
  comm : ∀ load store, store ∈ aliases.partnersOf load ↔ load ∈ aliases.partnersOf store
  ascending : ∀ site, (aliases.partnersOf site).Pairwise (· < ·)

theorem pairs_of_build (h : Supergraph.Built program calls graph)
    (hbuild : HeapAliases.build graph result = .ok aliases) :
    Pairs program result graph aliases where
  fieldLoad load lhs base field hload store := by
    have hthrough : (HeapAccess.loadField field).Through base (.loadField lhs (some base) field) :=
      ⟨lhs, rfl⟩
    rw [HeapAliases.mem_partnersOf_iff_mayMeet h hbuild hload hthrough]
    refine and_congr_right fun _ => and_congr_right fun _ => ?_
    constructor
    · rintro ⟨_, base', hstore, ⟨rhs, rfl⟩, hmeet⟩
      exact ⟨base', rhs, hstore, hmeet⟩
    · rintro ⟨base', rhs, hstore, hmeet⟩
      exact ⟨_, base', hstore, ⟨rhs, rfl⟩, hmeet⟩
  fieldStore store base field rhs hstore load := by
    have hthrough : (HeapAccess.storeField field).Through base
        (.storeField (some base) field rhs) := ⟨rhs, rfl⟩
    rw [HeapAliases.mem_partnersOf_iff_mayMeet h hbuild hstore hthrough]
    refine and_congr_right fun _ => and_congr_right fun _ => ?_
    constructor
    · rintro ⟨_, base', hload, ⟨lhs, rfl⟩, hmeet⟩
      exact ⟨base', lhs, hload, hmeet⟩
    · rintro ⟨base', lhs, hload, hmeet⟩
      exact ⟨_, base', hload, ⟨lhs, rfl⟩, hmeet⟩
  arrayLoad load lhs base index hload store := by
    have hthrough : HeapAccess.loadSlot.Through base (.loadArray lhs base index) :=
      ⟨lhs, index, rfl⟩
    rw [HeapAliases.mem_partnersOf_iff_mayMeet h hbuild hload hthrough]
    refine and_congr_right fun _ => and_congr_right fun _ => ?_
    constructor
    · rintro ⟨_, base', hstore, ⟨slot, rhs, rfl⟩, hmeet⟩
      exact ⟨base', slot, rhs, hstore, hmeet⟩
    · rintro ⟨base', slot, rhs, hstore, hmeet⟩
      exact ⟨_, base', hstore, ⟨slot, rhs, rfl⟩, hmeet⟩
  arrayStore store base index rhs hstore load := by
    have hthrough : HeapAccess.storeSlot.Through base (.storeArray base index rhs) :=
      ⟨index, rhs, rfl⟩
    rw [HeapAliases.mem_partnersOf_iff_mayMeet h hbuild hstore hthrough]
    refine and_congr_right fun _ => and_congr_right fun _ => ?_
    constructor
    · rintro ⟨_, base', hload, ⟨lhs, slot, rfl⟩, hmeet⟩
      exact ⟨base', lhs, slot, hload, hmeet⟩
    · rintro ⟨base', lhs, slot, hload, hmeet⟩
      exact ⟨_, base', hload, ⟨lhs, slot, rfl⟩, hmeet⟩
  other _ := HeapAliases.partnersOf_eq_nil h hbuild
  comm _ _ := HeapAliases.partnersOf_comm h hbuild
  ascending := HeapAliases.pairwise_partnersOf h hbuild

/-- With any result of the points-to analysis of a program, the accesses of the supergraph are
paired exactly and in both directions. -/
theorem prepare_pairs (program : Program) {points : Config.PointsTo} {result : PointsTo.Result}
    (hresult : PointsTo.analyze program points = .ok result) {config : Config.Dataflow}
    (haware : config.aliasAware = true) :
    ∃ graph aliases, prepare program config result = .ok (graph, aliases) ∧
      Supergraph.build program result.callGraph = .ok graph ∧
      Pairs program result graph aliases := by
  have hcomplete := PointsTo.complete_of_analyze hresult
  obtain ⟨graph, aliases, hprepare, hbuilt, haliases, -⟩ :=
    exists_prepare config hcomplete.reaches hcomplete.entries
  exact ⟨graph, aliases, hprepare, hbuilt.build_eq, pairs_of_build hbuilt (haliases haware)⟩

/-- In `counterProgram` the load of the field has its only store as a partner. -/
theorem prepare_pairs_counter : ∃ result graph aliases,
    PointsTo.analyze counterProgram .standard = .ok result ∧
      Config.Dataflow.standard.aliasAware = true ∧
      prepare counterProgram .standard result = .ok (graph, aliases) ∧
      (⟨⟨0⟩, 2⟩ : Site) ∈ aliases.partnersOf ⟨⟨0⟩, 3⟩ ∧
      (⟨⟨0⟩, 3⟩ : Site) ∈ aliases.partnersOf ⟨⟨0⟩, 2⟩ ∧ aliases.partnersOf ⟨⟨0⟩, 1⟩ = [] := by
  obtain ⟨final, hsolve, -⟩ := PointsTo.State.exists_solve counterProgram (.ofConfig .standard)
  have hresult : PointsTo.analyze counterProgram .standard =
      .ok ⟨final, counterProgram.entries⟩ := by
    simp [PointsTo.analyze, hsolve]
  have haware : Config.Dataflow.standard.aliasAware = true := rfl
  obtain ⟨graph, aliases, hprepare, hgraph, hpairs⟩ :=
    prepare_pairs counterProgram hresult haware
  have hcomplete := PointsTo.complete_of_analyze hresult
  -- The variable points to the object of the allocation.
  have halloc : counterProgram.getStmt ⟨⟨0⟩, 0⟩ = .ok (.alloc ⟨0⟩ (.object ⟨0⟩)) := rfl
  obtain ⟨context, id, hholds, -, csObject, -, hcsObject, -⟩ :=
    (hcomplete.knows (.alloc (.entry (by decide)) halloc)).pointsTo
  obtain ⟨objects, hobjects, hmem⟩ := PointsTo.Result.exists_pointsTo hcomplete.reaches ⟨0⟩
  have hobject := (hmem _).mpr ⟨context, id, csObject, hholds, hcsObject, rfl⟩
  have hmeet : MayMeet ⟨final, counterProgram.entries⟩ ⟨0⟩ ⟨0⟩ :=
    ⟨objects, objects, _, hobjects, hobjects, hobject, hobject⟩
  have hentry : (⟨0⟩ : MethodId) ∈ counterProgram.entries := by decide
  have hmethod : (⟨0⟩ : MethodId) ∈ graph.methods := by
    rw [(Supergraph.built_of_build hgraph).methods_eq]
    exact PointsTo.Result.mem_reachable_callGraph_iff.mpr (.inl hentry)
  have hstore := (hpairs.fieldLoad ⟨⟨0⟩, 3⟩ ⟨2⟩ ⟨0⟩ ⟨0⟩ rfl ⟨⟨0⟩, 2⟩).mpr
    ⟨hmethod, hmethod, ⟨0⟩, ⟨1⟩, rfl, hmeet⟩
  refine ⟨_, graph, aliases, hresult, haware, hprepare, hstore, (hpairs.comm _ _).mp hstore,
    hpairs.other _ fun stmt hstmt => ?_⟩
  cases hstmt
  rfl

end InterConstants

end ObjectFlow.Dataflow
