import ObjectFlow.Dataflow.InterConstants
import ObjectFlow.Proofs.Dataflow.Constants
import ObjectFlow.Proofs.Dataflow.HeapAccess
import ObjectFlow.Proofs.Dataflow.Interprocedural

/-!
# Loads and stores of constant propagation

What a node of the supergraph does to a fact can always be told.  Only loads look at the
facts of other nodes, and only at those of the stores that they may meet.  A store has all
of these loads visited again, except loads from a position in an array that cannot be the
one where it stores.
-/

namespace ObjectFlow.Dataflow.InterConstants

open Supergraph (Built)

variable {program : Program} {config : Config.Dataflow} {aliases : HeapAliases} {site : Site}
  {stmt : Stmt}

section Stores

/-- The store that a statement is. -/
def storeRef? (site : Site) : Stmt → Option StoreRef
  | .storeField _ _ rhs => some ⟨.ofSite site, none, rhs⟩
  | .storeArray _ index rhs => some ⟨.ofSite site, some index, rhs⟩
  | _ => none

/-- The load that a statement is. -/
def loadRef? (site : Site) : Stmt → Option LoadRef
  | .loadField _ _ _ => some ⟨.ofSite site, none⟩
  | .loadArray _ _ index => some ⟨.ofSite site, some index⟩
  | _ => none

/-- Whether a node stores into the heap. -/
def stores (program : Program) (node : Node) : Bool :=
  match node.site? with
  | none => false
  | some site =>
    match program.getStmt site with
    | .ok stmt => (storeRef? site stmt).isSome
    | .error _ => false

theorem stores_ofSite (hstmt : program.getStmt site = .ok stmt) :
    stores program (.ofSite site) = (storeRef? site stmt).isSome := by
  have hsite : (Node.ofSite site).site? = some site := Node.site?_eq_some_iff.mpr rfl
  simp only [stores, hsite, hstmt]

theorem exists_of_stores {node : Node} (h : stores program node = true) :
    ∃ site stmt, node = .ofSite site ∧ program.getStmt site = .ok stmt ∧
      (storeRef? site stmt).isSome = true := by
  unfold stores at h
  split at h
  · cases h
  · next site hsite =>
    split at h
    · next stmt hstmt => exact ⟨site, stmt, Node.site?_eq_some_iff.mp hsite, hstmt, h⟩
    · cases h

theorem node_of_storeRef? {ref : StoreRef} (h : storeRef? site stmt = some ref) :
    ref.node = .ofSite site := by
  cases stmt <;> simp only [storeRef?, Option.some.injEq, reduceCtorEq] at h <;> rw [← h]

/-- A list of sites is read as the references that the statements are. -/
theorem mem_refs_iff {α : Type} {read : Site → Except Fault (Option α)}
    {ref? : Site → Stmt → Option α} {sites : List Site} {refs : List α}
    (hread : ∀ site, read site = do return ref? site (← program.getStmt site))
    (h : (do return (← sites.mapM read).filterMap id) = (.ok refs : Except Fault (List α)))
    {ref : α} :
    ref ∈ refs ↔
      ∃ site ∈ sites, ∃ stmt, program.getStmt site = .ok stmt ∧ ref? site stmt = some ref := by
  obtain ⟨found, hfound, hpure⟩ := bind_eq_ok_iff.mp h
  cases hpure
  simp only [List.mem_filterMap, id_eq, exists_eq_right, mem_mapM_iff hfound, hread, bind_eq_ok_iff,
    pure_eq_ok, Except.ok.injEq]

theorem storeRefs_eq (sites : List Site) : storeRefs program sites = (do
    return (← sites.mapM fun site => do return storeRef? site (← program.getStmt site)).filterMap
      id) := by
  unfold storeRefs
  congr 2
  funext site
  cases program.getStmt site with
  | error fault => rfl
  | ok stmt => cases stmt <;> rfl

theorem loadRefs_eq (sites : List Site) : loadRefs program sites = (do
    return (← sites.mapM fun site => do return loadRef? site (← program.getStmt site)).filterMap
      id) := by
  unfold loadRefs
  congr 2
  funext site
  cases program.getStmt site with
  | error fault => rfl
  | ok stmt => cases stmt <;> rfl

theorem mem_storeRefs_iff {sites : List Site} {refs : List StoreRef}
    (h : storeRefs program sites = .ok refs) {ref : StoreRef} :
    ref ∈ refs ↔
      ∃ site ∈ sites, ∃ stmt, program.getStmt site = .ok stmt ∧ storeRef? site stmt = some ref :=
  mem_refs_iff (fun _ => rfl) (storeRefs_eq sites ▸ h)

theorem mem_loadRefs_iff {sites : List Site} {refs : List LoadRef}
    (h : loadRefs program sites = .ok refs) {ref : LoadRef} :
    ref ∈ refs ↔
      ∃ site ∈ sites, ∃ stmt, program.getStmt site = .ok stmt ∧ loadRef? site stmt = some ref :=
  mem_refs_iff (fun _ => rfl) (loadRefs_eq sites ▸ h)

theorem exists_refs {α : Type} {ref? : Site → Stmt → Option α} {sites : List Site}
    (h : ∀ site ∈ sites, ∃ stmt, program.getStmt site = .ok stmt) :
    ∃ refs, (do return (← sites.mapM fun site => do
      return ref? site (← program.getStmt site)).filterMap id) =
        (.ok refs : Except Fault (List α)) := by
  have hread : ∀ site ∈ sites, ∃ ref,
      (do return ref? site (← program.getStmt site)) = (.ok ref : Except Fault (Option α)) := by
    intro site hsite
    obtain ⟨stmt, hstmt⟩ := h site hsite
    exact ⟨_, by rw [hstmt]; rfl⟩
  obtain ⟨found, hfound⟩ := exists_mapM_ok hread
  exact ⟨_, by rw [hfound]; rfl⟩

/-- The value that a store gives to a load depends on what flows out of the store. -/
theorem storedValue_eq (facts : Facts Fact) (position : Option Value) (ref : StoreRef) :
    storedValue facts position ref =
      match ref.slot, position with
      | some slot, some position =>
        if position.mayEqual ((facts.output ref.node).get slot) then
          (facts.output ref.node).get ref.value
        else .undefined
      | _, _ => (facts.output ref.node).get ref.value := by
  unfold storedValue Facts.output
  cases facts.after.get? ref.node with
  | some fact => rfl
  | none =>
    cases ref.slot with
    | none => rfl
    | some slot =>
      cases position with
      | none => rfl
      | some position => exact (ite_self _).symm

theorem storedValue_le_loadedValue {facts : Facts Fact} {position : Option Value}
    {refs : List StoreRef} {ref : StoreRef} (h : ref ∈ refs) :
    storedValue facts position ref ≤ loadedValue facts position refs :=
  Value.le_foldl_meet (storedValue facts position) h _

theorem loadedValue_congr {facts facts' : Facts Fact} {position : Option Value}
    {refs : List StoreRef}
    (h : ∀ ref ∈ refs, storedValue facts position ref = storedValue facts' position ref) :
    loadedValue facts position refs = loadedValue facts' position refs := by
  unfold loadedValue
  refine List.foldl_ext _ _ _ fun value ref href => ?_
  rw [h ref href]

end Stores

section Transfer

/-- Accesses that are paired are statements of the program that access an object, and the
pairing is symmetric. -/
structure Paired (program : Program) (aliases : HeapAliases) : Prop where
  access : ∀ {site other : Site}, other ∈ aliases.partnersOf site →
    ∃ stmt, program.getStmt other = .ok stmt ∧ (HeapAccess.ofStmt? stmt).isSome = true
  comm : ∀ {site other : Site}, other ∈ aliases.partnersOf site → site ∈ aliases.partnersOf other

theorem paired_empty (program : Program) : Paired program {} where
  access h := by simp [HeapAliases.partnersOf, Table.get?] at h
  comm h := by simp [HeapAliases.partnersOf, Table.get?] at h

theorem paired_of_build {calls : CallGraph Site MethodId} {graph : Supergraph}
    {result : PointsTo.Result} (h : Built program calls graph)
    (hbuild : HeapAliases.build graph result = .ok aliases) : Paired program aliases where
  access hother := by
    obtain ⟨access, objects, objects', object, -, ⟨-, stmt, base, hstmt, haccess, -⟩, -⟩ :=
      (HeapAliases.mem_partnersOf_iff h hbuild).mp hother
    exact ⟨stmt, hstmt, by simp [haccess]⟩
  comm := (HeapAliases.partnersOf_comm h hbuild).mp

/-- The stores that a load of a field may meet. -/
def fieldStores (program : Program) (aliases : HeapAliases) (site : Site) (base : Option VarId)
    (field : FieldId) : List Site :=
  if base.isNone then program.staticStores field else aliases.partnersOf site

/-- What a statement does to a fact. -/
inductive Effect (program : Program) (config : Config.Dataflow) (aliases : HeapAliases)
    (site : Site) : Stmt → (Facts Fact → Fact → Fact) → Prop where
  | call (call : Call) : Effect program config aliases site (.invoke call) fun _ => id
  | plain {stmt : Stmt} (hplain : stmt.isCall = false)
    (hload : config.aliasAware = true → (loadRef? site stmt).isSome = true →
      stmt.writes?.any program.holdsInt = false) :
    Effect program config aliases site stmt
      fun _ => Constants.transferStmt (stmt.writes?.any program.holdsInt) stmt
  | field {lhs : VarId} {base : Option VarId} {field : FieldId} {refs : List StoreRef}
    (haware : config.aliasAware = true) (hlhs : program.holdsInt lhs = true)
    (hrefs : storeRefs program (fieldStores program aliases site base field) = .ok refs) :
    Effect program config aliases site (.loadField lhs base field)
      fun facts fact => fact.update lhs (loadedValue facts none refs)
  | slot {lhs base index : VarId} {refs : List StoreRef}
    (haware : config.aliasAware = true) (hlhs : program.holdsInt lhs = true)
    (hrefs : storeRefs program (aliases.partnersOf site) = .ok refs) :
    Effect program config aliases site (.loadArray lhs base index)
      fun facts fact => fact.update lhs (loadedValue facts (some (fact.get index)) refs)

/-- What a node does to a fact. -/
inductive NodeEffect (program : Program) (config : Config.Dataflow) (aliases : HeapAliases) :
    Node → (Facts Fact → Fact → Fact) → Prop where
  | through {node : Node} (hnode : node.site? = none) :
    NodeEffect program config aliases node fun _ => id
  | stmt {site : Site} {stmt : Stmt} {f : Facts Fact → Fact → Fact}
    (hstmt : program.getStmt site = .ok stmt)
    (heffect : Effect program config aliases site stmt f) :
    NodeEffect program config aliases (.ofSite site) f

theorem exists_storeRefs (hpaired : Paired program aliases)
    (hstmt : program.getStmt site = .ok stmt) {lhs : VarId} {base : Option VarId}
    {field : FieldId} (hload : stmt = .loadField lhs base field) :
    ∃ refs, storeRefs program (fieldStores program aliases site base field) = .ok refs := by
  subst hload
  rw [storeRefs_eq]
  refine exists_refs fun other hother => ?_
  unfold fieldStores at hother
  split at hother
  · have hlt := PointsTo.field_lt_of_loadField hstmt
    obtain ⟨stmt, hstmt, -⟩ := (Program.mem_staticStores_iff hlt).mp hother
    exact ⟨stmt, hstmt⟩
  · obtain ⟨stmt, hstmt, -⟩ := hpaired.access hother
    exact ⟨stmt, hstmt⟩

theorem exists_slotRefs (hpaired : Paired program aliases) (site : Site) :
    ∃ refs, storeRefs program (aliases.partnersOf site) = .ok refs := by
  rw [storeRefs_eq]
  refine exists_refs fun other hother => ?_
  obtain ⟨stmt, hstmt, -⟩ := hpaired.access hother
  exact ⟨stmt, hstmt⟩

/-- A load whose value is not followed changes nothing. -/
theorem transferStmt_untracked (stmt : Stmt) : Constants.transferStmt false stmt = id := by
  funext fact
  unfold Constants.transferStmt
  split <;> rfl

theorem exists_transferStmt (hpaired : Paired program aliases)
    (hstmt : program.getStmt site = .ok stmt) (hplain : stmt.isCall = false)
    (haware : config.aliasAware = true) :
    ∃ f, transferStmt program aliases site stmt = .ok f ∧
      Effect program config aliases site stmt f := by
  have htracked := Constants.tracksWritten_of_getStmt hstmt
  cases stmt with
  | loadField lhs base field =>
    obtain ⟨refs, hrefs⟩ := exists_storeRefs hpaired hstmt rfl
    cases hlhs : program.holdsInt lhs with
    | true =>
      refine ⟨_, ?_, .field haware hlhs hrefs⟩
      simp only [fieldStores] at hrefs
      simp only [transferStmt, htracked, Stmt.writes?, Option.any_some, hlhs, ok_bind, if_true,
        hrefs]
      rfl
    | false =>
      refine ⟨_, ?_, .plain rfl fun _ _ => hlhs⟩
      simp only [transferStmt, htracked, Stmt.writes?, Option.any_some, hlhs, ok_bind,
        transferStmt_untracked]
      rfl
  | loadArray lhs base index =>
    obtain ⟨refs, hrefs⟩ := exists_slotRefs hpaired site
    cases hlhs : program.holdsInt lhs with
    | true =>
      refine ⟨_, ?_, .slot haware hlhs hrefs⟩
      simp only [transferStmt, htracked, Stmt.writes?, Option.any_some, hlhs, ok_bind, if_true,
        hrefs]
      rfl
    | false =>
      refine ⟨_, ?_, .plain rfl fun _ _ => hlhs⟩
      simp only [transferStmt, htracked, Stmt.writes?, Option.any_some, hlhs, ok_bind,
        transferStmt_untracked]
      rfl
  | _ =>
    refine ⟨_, ?_, .plain hplain (by simp [loadRef?])⟩
    simp only [transferStmt, htracked, ok_bind]
    rfl

/-- What a node does can always be told. -/
theorem exists_transfer (hpaired : Paired program aliases) {node : Node}
    (hnode : ∀ site, node.site? = some site → ∃ stmt, program.getStmt site = .ok stmt) :
    ∃ f, transfer program config aliases node = .ok f ∧
      NodeEffect program config aliases node f := by
  cases hsite : node.site? with
  | none => exact ⟨_, by rw [transfer, hsite]; rfl, .through hsite⟩
  | some site =>
    obtain ⟨stmt, hstmt⟩ := hnode site hsite
    obtain rfl := Node.site?_eq_some_iff.mp hsite
    cases hcall : stmt.isCall with
    | true =>
      obtain ⟨call, rfl⟩ := Supergraph.isCall_iff.mp hcall
      exact ⟨_, by rw [transfer, hsite]; simp [hstmt, hcall], .stmt hstmt (.call call)⟩
    | false =>
      cases haware : config.aliasAware with
      | true =>
        obtain ⟨f, hf, heffect⟩ := exists_transferStmt hpaired hstmt hcall haware
        exact ⟨f, by rw [transfer, hsite]; simp [hstmt, hcall, haware, hf], .stmt hstmt heffect⟩
      | false =>
        refine ⟨_, ?_, .stmt hstmt (.plain hcall (by simp [haware]))⟩
        rw [transfer, hsite]
        simp [hstmt, hcall, haware, Constants.tracksWritten_of_getStmt hstmt]

namespace NodeEffect

variable {node : Node} {f : Facts Fact → Fact → Fact} {facts facts' : Facts Fact} {fact : Fact}

theorem tidy (h : NodeEffect program config aliases node f) (facts : Facts Fact)
    (hfact : fact.Tidy program.listing.vars.size) :
    (f facts fact).Tidy program.listing.vars.size := by
  cases h with
  | through => exact hfact
  | stmt hstmt heffect =>
    cases heffect with
    | call => exact hfact
    | plain => exact Constants.tidy_transferStmt hfact hstmt
    | field => exact hfact.update (Constants.writes_lt hstmt rfl) _
    | slot => exact hfact.update (Constants.writes_lt hstmt rfl) _

theorem stores_of_mem_refs {sites : List Site} {refs : List StoreRef}
    (hrefs : storeRefs program sites = .ok refs) {ref : StoreRef} (href : ref ∈ refs) :
    stores program ref.node = true := by
  obtain ⟨site, -, stmt, hstmt, hstore⟩ := (mem_storeRefs_iff hrefs).mp href
  rw [node_of_storeRef? hstore, stores_ofSite hstmt, hstore]
  rfl

/-- A node looks only at what flows out of stores. -/
theorem congr (h : NodeEffect program config aliases node f)
    (houtput : ∀ other, stores program other = true → facts.output other = facts'.output other) :
    f facts = f facts' := by
  have hloaded : ∀ {sites : List Site} {refs : List StoreRef} (position : Option Value),
      storeRefs program sites = .ok refs →
        loadedValue facts position refs = loadedValue facts' position refs := by
    intro sites refs position hrefs
    refine loadedValue_congr fun ref href => ?_
    rw [storedValue_eq, storedValue_eq, houtput _ (stores_of_mem_refs hrefs href)]
  cases h with
  | through => rfl
  | stmt hstmt heffect =>
    cases heffect with
    | call => rfl
    | plain => rfl
    | field _ _ hrefs =>
      funext fact
      exact congrArg (fact.update _) (hloaded none hrefs)
    | slot _ _ hrefs =>
      funext fact
      exact congrArg (fact.update _) (hloaded _ hrefs)

theorem passes (h : NodeEffect program config aliases node f)
    (hstores : stores program node = true) : f facts fact = fact := by
  cases h with
  | through => rfl
  | @stmt site store _ hstmt heffect =>
    rw [stores_ofSite hstmt] at hstores
    cases heffect with
    | call => rfl
    | plain =>
      have hwrites : store.writes? = none := by
        cases store <;> simp_all [storeRef?, Stmt.writes?]
      simp only [Constants.transferStmt, hwrites]
    | field => cases hstores
    | slot => cases hstores

end NodeEffect

end Transfer

section Dependents

/-- A store concerns a load when what the store holds may be what the load reads. -/
def Concerned (program : Program) (aliases : HeapAliases) (facts : Facts Fact) (fact : Fact)
    (site load : Site) : Stmt → Prop
  | .storeField none field _ => load ∈ program.staticLoads field
  | .storeField (some _) _ _ => load ∈ aliases.partnersOf site
  | .storeArray _ index _ => load ∈ aliases.partnersOf site ∧
      ∃ stmt ref, program.getStmt load = .ok stmt ∧ loadRef? load stmt = some ref ∧
        concerns facts (some (fact.get index)) ref = true
  | _ => False

theorem node_of_loadRef? {ref : LoadRef} (h : loadRef? site stmt = some ref) :
    ref.node = .ofSite site := by
  cases stmt <;> simp only [loadRef?, Option.some.injEq, reduceCtorEq] at h <;> rw [← h]

/-- The dependents of a node can always be told, and are the loads that it concerns. -/
theorem exists_dependents (hpaired : Paired program aliases)
    (hstmt : program.getStmt site = .ok stmt) :
    ∃ g, dependents program config aliases (.ofSite site) = .ok g ∧
      (config.aliasAware = true → ∀ facts fact load,
        Concerned program aliases facts fact site load stmt → .ofSite load ∈ g facts fact) := by
  have hsite : (Node.ofSite site).site? = some site := Node.site?_eq_some_iff.mpr rfl
  cases haware : config.aliasAware with
  | false => exact ⟨_, by simp only [dependents, hsite, hstmt, haware, ok_bind]; rfl, by simp⟩
  | true =>
    cases stmt with
    | storeField base field rhs =>
      cases base with
      | none =>
        refine ⟨_, by simp only [dependents, hsite, hstmt, haware, ok_bind]; rfl, ?_⟩
        intro _ facts fact load hload
        exact List.mem_map.mpr ⟨load, hload, rfl⟩
      | some base =>
        refine ⟨_, by simp only [dependents, hsite, hstmt, haware, ok_bind]; rfl, ?_⟩
        intro _ facts fact load hload
        exact List.mem_map.mpr ⟨load, hload, rfl⟩
    | storeArray base index rhs =>
      have hreads : ∀ other ∈ aliases.partnersOf site, ∃ stmt, program.getStmt other = .ok stmt :=
        fun other hother => (hpaired.access hother).imp fun _ h => h.1
      obtain ⟨loads, hloads⟩ := exists_refs hreads
      rw [← loadRefs_eq] at hloads
      refine ⟨_, by simp only [dependents, hsite, hstmt, haware, ok_bind, hloads]; rfl, ?_⟩
      rintro - facts fact load ⟨hload, stmt, ref, hstmt', href, hconcerns⟩
      refine List.mem_map.mpr ⟨ref, List.mem_filter.mpr ⟨?_, hconcerns⟩, node_of_loadRef? href⟩
      exact (mem_loadRefs_iff hloads).mpr ⟨load, hload, stmt, hstmt', href⟩
    | _ =>
      exact ⟨_, by simp only [dependents, hsite, hstmt, haware, ok_bind]; rfl, by simp [Concerned]⟩

variable {source load : Site} {store : Stmt} {facts : Facts Fact} {fact : Fact}

theorem concerned_of_static {lhs : VarId} {field : FieldId}
    (hload : program.getStmt load = .ok (.loadField lhs none field))
    (hsource : source ∈ program.staticStores field) (hstore : program.getStmt source = .ok store) :
    Concerned program aliases facts fact source load store := by
  have hlt := PointsTo.field_lt_of_loadField hload
  obtain ⟨stmt, hstmt, hfield⟩ := (Program.mem_staticStores_iff hlt).mp hsource
  cases hstmt.symm.trans hstore
  cases store with
  | storeField base other rhs =>
    cases base with
    | none =>
      cases hfield
      exact (Program.mem_staticLoads_iff hlt).mpr ⟨_, hload, rfl⟩
    | some base => cases hfield
  | _ => cases hfield

/-- A store concerns each load that it is paired with, except for a store and a load in an
array at positions that cannot be the same. -/
theorem concerned_of_partner (hpaired : Paired program aliases)
    (hload : program.getStmt load = .ok stmt) {ref : LoadRef} (href : loadRef? load stmt = some ref)
    (hsource : source ∈ aliases.partnersOf load) (hstore : program.getStmt source = .ok store)
    (hisStore : (storeRef? source store).isSome = true)
    (hconcerns : ∀ base index rhs, store = .storeArray base index rhs →
      concerns facts (some (fact.get index)) ref = true) :
    Concerned program aliases facts fact source load store := by
  have hcomm := hpaired.comm hsource
  cases store with
  | storeField base field rhs =>
    cases base with
    | none =>
      obtain ⟨found, hfound, haccess⟩ := hpaired.access hsource
      cases hfound.symm.trans hstore
      cases haccess
    | some base => exact hcomm
  | storeArray base index rhs => exact ⟨hcomm, stmt, ref, hload, href, hconcerns base index rhs rfl⟩
  | _ => cases hisStore

/-- A load in an array takes nothing from a store at a position that cannot be its own, and
took nothing when less was known of that position. -/
theorem storedValue_of_distinct {position : Value} {index rhs : VarId}
    (hgrows : facts.output (.ofSite source) ≤ fact)
    (hdistinct : position.mayEqual (fact.get index) = false) :
    storedValue (facts.setAfter (.ofSite source) fact) (some position)
        ⟨.ofSite source, some index, rhs⟩ =
      storedValue facts (some position) ⟨.ofSite source, some index, rhs⟩ := by
  have hbefore : position.mayEqual ((facts.output (.ofSite source)).get index) = false := by
    by_contra hmay
    rw [Bool.not_eq_false] at hmay
    have hnow := Value.mayEqual_mono (le_refl position) (hgrows index) hmay
    rw [hdistinct] at hnow
    cases hnow
  rw [storedValue_eq, storedValue_eq]
  simp only [Facts.output_setAfter, if_true, hdistinct, hbefore]
  rfl

/-- When what flows out of a store grows, the nodes that it does not concern do the same as
before. -/
theorem NodeEffect.setAfter_eq (hpaired : Paired program aliases) {node : Node}
    {f : Facts Fact → Fact → Fact} (h : NodeEffect program config aliases node f)
    (hstore : program.getStmt source = .ok store)
    (hisStore : (storeRef? source store).isSome = true)
    (hgrows : facts.output (.ofSite source) ≤ fact)
    (hnot : config.aliasAware = true → ∀ load, node = .ofSite load →
      ¬ Concerned program aliases facts fact source load store) :
    f (facts.setAfter (.ofSite source) fact) (facts.input node) = f facts (facts.input node) := by
  have hother : ∀ {other : Site} {stmt : Stmt} {ref : StoreRef} (position : Option Value),
      storeRef? other stmt = some ref → other ≠ source →
        storedValue (facts.setAfter (.ofSite source) fact) position ref =
          storedValue facts position ref := by
    intro other stmt ref position href hne
    have hnode : ref.node ≠ .ofSite source := by
      rw [node_of_storeRef? href]
      exact fun heq => hne (Node.ofSite_injective heq)
    rw [storedValue_eq, storedValue_eq, Facts.output_setAfter, if_neg hnode]
  cases h with
  | through => rfl
  | @stmt load _ _ hload heffect =>
    cases heffect with
    | call => rfl
    | plain => rfl
    | @field lhs base field refs haware _ hrefs =>
      refine congrArg (Fact.update _ lhs) (loadedValue_congr fun ref href => ?_)
      obtain ⟨other, hmem, stmt, hstmt, href⟩ := (mem_storeRefs_iff hrefs).mp href
      by_cases heq : other = source
      · subst heq
        refine absurd ?_ (hnot haware load rfl)
        unfold fieldStores at hmem
        split at hmem
        · next hbase =>
          rw [Option.isNone_iff_eq_none] at hbase
          subst hbase
          exact concerned_of_static hload hmem hstore
        · exact concerned_of_partner hpaired hload rfl hmem hstore hisStore fun _ _ _ _ => rfl
      · exact hother none href heq
    | @slot lhs base slot refs haware _ hrefs =>
      refine congrArg (Fact.update _ lhs) (loadedValue_congr fun ref href => ?_)
      obtain ⟨other, hmem, stmt, hstmt, href⟩ := (mem_storeRefs_iff hrefs).mp href
      by_cases heq : other = source
      · subst heq
        cases hstmt.symm.trans hstore
        have hconcerned := fun hconcerns => hnot haware load rfl
          (concerned_of_partner hpaired hload rfl hmem hstore hisStore hconcerns)
        cases store with
        | storeArray base' index rhs =>
          cases href
          refine storedValue_of_distinct hgrows ?_
          rw [Value.mayEqual_comm]
          by_contra hmay
          rw [Bool.not_eq_false] at hmay
          refine hconcerned fun _ _ _ hsame => ?_
          cases hsame
          exact hmay
        | _ => exact absurd (fun _ _ _ hsame => by cases hsame) hconcerned
      · exact hother _ href heq

end Dependents

end ObjectFlow.Dataflow.InterConstants
