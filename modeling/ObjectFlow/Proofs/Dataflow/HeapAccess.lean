import ObjectFlow.Dataflow.HeapAccess
import ObjectFlow.Proofs.Dataflow.Supergraph
import ObjectFlow.Proofs.PointsTo.Answers
import ObjectFlow.Proofs.Table

/-!
# Pairs of heap accesses

Two accesses of reachable methods are paired when one of them loads what the other one
stores and both may go to a common object.  The pairing is symmetric.
-/

namespace ObjectFlow.Dataflow

open PointsTo (Policy Result State)

variable {program : Program} {calls : CallGraph Site MethodId} {graph : Supergraph}
  {result : Result} {policy : Policy}

namespace HeapAccess

theorem partner_partner (access : HeapAccess) : access.partner.partner = access := by
  cases access <;> rfl

/-- The statements that have an access through a variable. -/
def Through (base : VarId) (stmt : Stmt) : HeapAccess → Prop
  | loadField field => ∃ lhs, stmt = .loadField lhs (some base) field
  | storeField field => ∃ rhs, stmt = .storeField (some base) field rhs
  | loadSlot => ∃ lhs index, stmt = .loadArray lhs base index
  | storeSlot => ∃ index rhs, stmt = .storeArray base index rhs

theorem ofStmt?_eq_some_iff {stmt : Stmt} {base : VarId} {access : HeapAccess} :
    ofStmt? stmt = some (base, access) ↔ access.Through base stmt := by
  constructor
  · intro h
    cases stmt with
    | loadField lhs base' field =>
      cases base' with
      | none => cases h
      | some base' =>
        cases h
        exact ⟨lhs, rfl⟩
    | storeField base' field rhs =>
      cases base' with
      | none => cases h
      | some base' =>
        cases h
        exact ⟨rhs, rfl⟩
    | loadArray lhs base' index =>
      cases h
      exact ⟨lhs, index, rfl⟩
    | storeArray base' index rhs =>
      cases h
      exact ⟨index, rhs, rfl⟩
    | _ => cases h
  · intro h
    cases access with
    | loadField field =>
      obtain ⟨lhs, rfl⟩ := h
      rfl
    | storeField field =>
      obtain ⟨rhs, rfl⟩ := h
      rfl
    | loadSlot =>
      obtain ⟨lhs, index, rfl⟩ := h
      rfl
    | storeSlot =>
      obtain ⟨index, rhs, rfl⟩ := h
      rfl

end HeapAccess

/-- A statement of a reachable method accesses one of the given objects. -/
structure Accesses (program : Program) (calls : CallGraph Site MethodId) (result : Result)
    (site : Site) (access : HeapAccess) (objects : List ObjId) : Prop where
  reachable : site.method ∈ calls.reachable.toList
  goes : ∃ stmt base, program.getStmt site = .ok stmt ∧
    HeapAccess.ofStmt? stmt = some (base, access) ∧ result.pointsTo base = .ok objects

theorem Accesses.functional {site : Site} {access access' : HeapAccess}
    {objects objects' : List ObjId} (h : Accesses program calls result site access objects)
    (h' : Accesses program calls result site access' objects') :
    access = access' ∧ objects = objects' := by
  obtain ⟨-, stmt, base, hstmt, haccess, hobjects⟩ := h
  obtain ⟨-, stmt', base', hstmt', haccess', hobjects'⟩ := h'
  cases hstmt.symm.trans hstmt'
  cases haccess.symm.trans haccess'
  cases hobjects.symm.trans hobjects'
  exact ⟨rfl, rfl⟩

/-- The accesses of the statements of a supergraph, with the variables that they go
through. -/
def heapAccesses (graph : Supergraph) : List (Site × VarId × HeapAccess) :=
  graph.cfgs.flatMap fun cfg => cfg.stmts.toList.zipIdx.filterMap fun (stmt, index) =>
    (HeapAccess.ofStmt? stmt).map fun (base, access) => ((⟨cfg.method, index⟩ : Site), base, access)

theorem mem_heapAccesses_iff (h : Supergraph.Built program calls graph) {site : Site} {base : VarId}
    {access : HeapAccess} :
    (site, base, access) ∈ heapAccesses graph ↔ site.method ∈ calls.reachable.toList ∧
      ∃ stmt, program.getStmt site = .ok stmt ∧ HeapAccess.ofStmt? stmt = some (base, access) := by
  simp only [heapAccesses, List.mem_flatMap, h.mem_cfgs_iff, List.mem_filterMap, Prod.exists,
    List.mem_zipIdx_iff_getElem?, Array.getElem?_toList, Option.map_eq_some_iff, Prod.mk.injEq,
    Program.getStmt_eq_ok_iff]
  constructor
  · rintro ⟨cfg, ⟨method, hmethod, found, hfound, rfl⟩, stmt, index, hstmt, base', access',
      haccess, rfl, rfl, rfl⟩
    exact ⟨hmethod, stmt, ⟨found, hfound, hstmt⟩, haccess⟩
  · rintro ⟨hmethod, stmt, ⟨found, hfound, hstmt⟩, haccess⟩
    exact ⟨_, ⟨site.method, hmethod, found, hfound, rfl⟩, stmt, site.index, hstmt, base, access,
      haccess, rfl, rfl, rfl⟩

theorem accessors_eq : accessors graph result = (heapAccesses graph).mapM
    fun (site, base, access) => return ⟨site, access, ← result.pointsTo base⟩ := rfl

theorem mem_accessors_iff (h : Supergraph.Built program calls graph) {found : List Accessor}
    (hfound : accessors graph result = .ok found) {accessor : Accessor} :
    accessor ∈ found ↔
      Accesses program calls result accessor.site accessor.access accessor.objects := by
  rw [accessors_eq] at hfound
  obtain ⟨site, access, objects⟩ := accessor
  simp only [mem_mapM_iff hfound, Prod.exists, mem_heapAccesses_iff h, bind_eq_ok_iff, pure_eq_ok,
    Except.ok.injEq, Accessor.mk.injEq]
  constructor
  · rintro ⟨site', base, access', ⟨hmethod, stmt, hstmt, haccess⟩, objects', hobjects, rfl, rfl,
      rfl⟩
    exact ⟨hmethod, stmt, base, hstmt, haccess, hobjects⟩
  · rintro ⟨hmethod, stmt, base, hstmt, haccess, hobjects⟩
    exact ⟨site, base, access, ⟨hmethod, stmt, hstmt, haccess⟩, objects, hobjects, rfl, rfl, rfl⟩

theorem exists_accessors (hreaches : State.Reaches program policy result.state)
    (graph : Supergraph) : ∃ found, accessors graph result = .ok found := by
  rw [accessors_eq]
  refine exists_mapM_ok fun ⟨site, base, access⟩ _ => ?_
  obtain ⟨objects, hobjects, -⟩ := PointsTo.Result.exists_pointsTo hreaches base
  exact ⟨⟨site, access, objects⟩, by simp [hobjects]⟩

namespace HeapBuckets

variable {buckets : HeapBuckets} {accessors : List Accessor} {site : Site} {object : ObjId}
  {access : HeapAccess}

theorem mem_sitesOf_addSite {other : Site} {object' : ObjId} {access' : HeapAccess} :
    site ∈ (buckets.addSite other access' object').sitesOf object access ↔
      site ∈ buckets.sitesOf object access ∨
        other = site ∧ access' = access ∧ object = object' := by
  by_cases hkey : object = object' ∧ access = access'
  · obtain ⟨rfl, rfl⟩ := hkey
    simp [addSite, sitesOf, eq_comm]
  · have hne : ¬ (access' = access ∧ object = object') := fun h => hkey ⟨h.2, h.1.symm⟩
    simp [addSite, sitesOf, hkey, hne]

theorem mem_sitesOf_add {accessor : Accessor} :
    site ∈ (buckets.add accessor).sitesOf object access ↔ site ∈ buckets.sitesOf object access ∨
      accessor.site = site ∧ accessor.access = access ∧ object ∈ accessor.objects := by
  obtain ⟨other, access', objects⟩ := accessor
  simp only [add]
  induction objects generalizing buckets with
  | nil => simp
  | cons first objects ih =>
    rw [List.foldl_cons, ih, mem_sitesOf_addSite, List.mem_cons, or_assoc, ← and_or_left,
      ← and_or_left]

/-- A bucket has the sites of the accesses that do one thing to one object. -/
theorem mem_sitesOf_ofAccessors : site ∈ (ofAccessors accessors).sitesOf object access ↔
    ∃ a ∈ accessors, a.site = site ∧ a.access = access ∧ object ∈ a.objects := by
  suffices hfold : ∀ buckets : HeapBuckets,
      site ∈ (accessors.foldl add buckets).sitesOf object access ↔
        site ∈ buckets.sitesOf object access ∨
          ∃ a ∈ accessors, a.site = site ∧ a.access = access ∧ object ∈ a.objects by
    rw [ofAccessors, hfold]
    simp [sitesOf, Table.get?]
  induction accessors with
  | nil => simp
  | cons first accessors ih =>
    intro buckets
    rw [List.foldl_cons, ih, mem_sitesOf_add, or_assoc, List.exists_mem_cons_iff]

/-- The partners of an access are the accesses that do the converse to one of its objects. -/
theorem mem_partners {a : Accessor} : site ∈ (ofAccessors accessors).partners a ↔
    ∃ b ∈ accessors, b.site = site ∧ b.access = a.access.partner ∧
      ∃ object ∈ a.objects, object ∈ b.objects := by
  simp only [partners, SortedSet.mem_ofList, List.mem_flatMap, mem_sitesOf_ofAccessors]
  constructor
  · rintro ⟨object, hobject, b, hb, hsite, haccess, hobject'⟩
    exact ⟨b, hb, hsite, haccess, object, hobject, hobject'⟩
  · rintro ⟨b, hb, hsite, haccess, object, hobject, hobject'⟩
    exact ⟨object, hobject, b, hb, hsite, haccess, hobject'⟩

end HeapBuckets

namespace HeapAliases

theorem exists_build (hreaches : State.Reaches program policy result.state) (graph : Supergraph) :
    ∃ aliases, build graph result = .ok aliases := by
  obtain ⟨found, hfound⟩ := exists_accessors hreaches graph
  exact ⟨_, by rw [build, hfound]; rfl⟩

variable {aliases : HeapAliases} {site other : Site}

theorem partnersOf_add {buckets : HeapBuckets} {a : Accessor} :
    (add buckets aliases a).partnersOf site =
      if a.site = site ∧ buckets.partners a ≠ [] then buckets.partners a
      else aliases.partnersOf site := by
  unfold add
  by_cases hempty : buckets.partners a = []
  · simp [hempty]
  · by_cases hsite : a.site = site
    · simp [hempty, hsite, partnersOf]
    · simp [hempty, hsite, Ne.symm hsite, partnersOf]

/-- When the accesses at a site all have the same partners, these stand in its row. -/
theorem partnersOf_foldl_add {buckets : HeapBuckets} {accessors : List Accessor} {row : List Site}
    (hrow : ∀ a ∈ accessors, a.site = site → buckets.partners a = row) :
    (accessors.foldl (add buckets) aliases).partnersOf site =
      if (∃ a ∈ accessors, a.site = site) ∧ row ≠ [] then row else aliases.partnersOf site := by
  induction accessors generalizing aliases with
  | nil => simp
  | cons first accessors ih =>
    obtain ⟨hfirst, hrest⟩ := List.forall_mem_cons.mp hrow
    rw [List.foldl_cons, ih hrest, partnersOf_add]
    simp only [List.exists_mem_cons_iff]
    by_cases hsite : first.site = site
    · rw [hfirst hsite]
      by_cases hempty : row = [] <;> simp [hsite, hempty]
    · simp [hsite]

/-- The partners of an access are those that its row was made of. -/
theorem partnersOf_of_mem (h : Supergraph.Built program calls graph) {found : List Accessor}
    (hfound : accessors graph result = .ok found) {a : Accessor} (ha : a ∈ found) :
    (found.foldl (add (.ofAccessors found)) {}).partnersOf a.site =
      (HeapBuckets.ofAccessors found).partners a := by
  have hmem : ∀ {accessor : Accessor}, accessor ∈ found ↔
      Accesses program calls result accessor.site accessor.access accessor.objects :=
    mem_accessors_iff h hfound
  have hsame : ∀ b ∈ found, b.site = a.site → b = a := by
    intro b hb hsite
    obtain ⟨haccess, hobjects⟩ := (hmem.mp hb).functional (hsite ▸ hmem.mp ha)
    cases a
    cases b
    simp_all
  rw [partnersOf_foldl_add fun b hb hsite => by rw [hsame b hb hsite]]
  split
  · rfl
  · next hnone =>
    have hempty : (HeapBuckets.ofAccessors found).partners a = [] :=
      Decidable.byContradiction fun hne => hnone ⟨⟨a, ha, rfl⟩, hne⟩
    rw [hempty]
    rfl

theorem partnersOf_of_not_mem {found : List Accessor} (hnot : ∀ a ∈ found, a.site ≠ site) :
    (found.foldl (add (.ofAccessors found)) {}).partnersOf site = [] := by
  have hrow : ∀ a ∈ found, a.site = site → (HeapBuckets.ofAccessors found).partners a = [] :=
    fun a ha hsite => absurd hsite (hnot a ha)
  rw [partnersOf_foldl_add hrow]
  simp [partnersOf, Table.get?]

/-- The partners of an access are the accesses of reachable methods that do the converse to
a common object. -/
theorem mem_partnersOf_iff (h : Supergraph.Built program calls graph)
    (hbuild : build graph result = .ok aliases) :
    other ∈ aliases.partnersOf site ↔ ∃ access objects objects' object,
      Accesses program calls result site access objects ∧
        Accesses program calls result other access.partner objects' ∧
        object ∈ objects ∧ object ∈ objects' := by
  obtain ⟨found, hfound, hpure⟩ := bind_eq_ok_iff.mp hbuild
  cases hpure
  have hmem : ∀ {accessor : Accessor}, accessor ∈ found ↔
      Accesses program calls result accessor.site accessor.access accessor.objects :=
    mem_accessors_iff h hfound
  constructor
  · intro hother
    by_cases hsite : ∃ a ∈ found, a.site = site
    · obtain ⟨a, ha, rfl⟩ := hsite
      rw [partnersOf_of_mem h hfound ha] at hother
      obtain ⟨b, hb, rfl, haccess, object, hobject, hobject'⟩ := HeapBuckets.mem_partners.mp hother
      exact ⟨a.access, a.objects, b.objects, object, hmem.mp ha, haccess ▸ hmem.mp hb, hobject,
        hobject'⟩
    · rw [partnersOf_of_not_mem fun a ha heq => hsite ⟨a, ha, heq⟩] at hother
      cases hother
  · rintro ⟨access, objects, objects', object, haccess, haccess', hobject, hobject'⟩
    have ha : (⟨site, access, objects⟩ : Accessor) ∈ found := hmem.mpr haccess
    have hb : (⟨other, access.partner, objects'⟩ : Accessor) ∈ found := hmem.mpr haccess'
    rw [partnersOf_of_mem h hfound ha]
    exact HeapBuckets.mem_partners.mpr ⟨_, hb, rfl, rfl, object, hobject, hobject'⟩

theorem partnersOf_comm (h : Supergraph.Built program calls graph)
    (hbuild : build graph result = .ok aliases) :
    other ∈ aliases.partnersOf site ↔ site ∈ aliases.partnersOf other := by
  rw [mem_partnersOf_iff h hbuild, mem_partnersOf_iff h hbuild]
  constructor
  · rintro ⟨access, objects, objects', object, haccess, haccess', hobject, hobject'⟩
    exact ⟨access.partner, objects', objects, object, haccess',
      access.partner_partner.symm ▸ haccess, hobject', hobject⟩
  · rintro ⟨access, objects, objects', object, haccess, haccess', hobject, hobject'⟩
    exact ⟨access.partner, objects', objects, object, haccess',
      access.partner_partner.symm ▸ haccess, hobject', hobject⟩

end HeapAliases

end ObjectFlow.Dataflow
