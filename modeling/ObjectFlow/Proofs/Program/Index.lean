import ObjectFlow.Proofs.Program.Tables
import ObjectFlow.Proofs.Table

/-!
# The index is a scan

The index of a program is filled by one walk over its statements.  For every variable it
lists, for each way to go through a variable, exactly the sites of the statements that go
through it in that way, in the order of the program.  For every static field it lists the
loads and stores in the same manner, and for every method the variables that it returns.
-/

namespace ObjectFlow

/-- The ways to go through a variable. -/
inductive Route where
  | loadField
  | storeField
  | loadArray
  | storeArray
  | invoke
  deriving DecidableEq, Repr

/-- The variable that a statement goes through, and how. -/
def Stmt.route? : Stmt → Option (VarId × Route)
  | .loadField _ (some base) _ => some (base, .loadField)
  | .storeField (some base) _ _ => some (base, .storeField)
  | .loadArray _ base _ => some (base, .loadArray)
  | .storeArray base _ _ => some (base, .storeArray)
  | .invoke call => call.base.map (·, .invoke)
  | _ => none

theorem Stmt.mem_uses_of_route? {stmt : Stmt} {v : VarId} {route : Route}
    (h : stmt.route? = some (v, route)) : v ∈ stmt.uses := by
  cases stmt with
  | loadField lhs base field => cases base <;> simp_all [Stmt.route?, Stmt.uses]
  | storeField base field rhs => cases base <;> simp_all [Stmt.route?, Stmt.uses]
  | invoke call => cases hbase : call.base <;> simp_all [Stmt.route?, Stmt.uses]
  | _ => simp_all [Stmt.route?, Stmt.uses]

/-- Only calls call a method of the variable that they go through. -/
theorem Stmt.exists_call_of_route {stmt : Stmt} {v : VarId}
    (h : stmt.route? = some (v, .invoke)) : ∃ call, stmt = .invoke call ∧ call.base = some v := by
  cases stmt with
  | loadField lhs base field => cases base <;> cases h
  | storeField base field rhs => cases base <;> cases h
  | invoke call =>
    obtain ⟨base, hbase, heq⟩ := Option.map_eq_some_iff.mp h
    cases heq
    exact ⟨call, rfl, hbase⟩
  | _ => cases h

/-- The static field that a statement loads. -/
def Stmt.staticLoad? : Stmt → Option FieldId
  | .loadField _ none field => some field
  | _ => none

/-- The static field that a statement stores into. -/
def Stmt.staticStore? : Stmt → Option FieldId
  | .storeField none field _ => some field
  | _ => none

/-- The variable that a statement returns. -/
def Stmt.returned? : Stmt → Option VarId
  | .ret value => value
  | _ => none

namespace Uses

/-- The sites that go through a variable in one way. -/
def along (uses : Uses) : Route → List Site
  | .loadField => uses.loadFields
  | .storeField => uses.storeFields
  | .loadArray => uses.loadArrays
  | .storeArray => uses.storeArrays
  | .invoke => uses.invokes

/-- Notes one more site. -/
def note (uses : Uses) (site : Site) : Route → Uses
  | .loadField => { uses with loadFields := uses.loadFields ++ [site] }
  | .storeField => { uses with storeFields := uses.storeFields ++ [site] }
  | .loadArray => { uses with loadArrays := uses.loadArrays ++ [site] }
  | .storeArray => { uses with storeArrays := uses.storeArrays ++ [site] }
  | .invoke => { uses with invokes := uses.invokes ++ [site] }

theorem along_note (uses : Uses) (site : Site) (noted asked : Route) :
    (uses.note site noted).along asked =
      uses.along asked ++ if noted = asked then [site] else [] := by
  cases noted <;> cases asked <;> simp [note, along]

end Uses

namespace Index

/-- A table of lists in which every item adds to at most one list. -/
def addSite {kind : Kind} (owner? : Stmt → Option (Handle kind)) (table : Array (List Site))
    (item : Site × Stmt) : Array (List Site) :=
  match owner? item.2 with
  | some owner => append table owner item.1
  | none => table

theorem getElem?_foldl_addSite {kind : Kind} (owner? : Stmt → Option (Handle kind))
    (table : Array (List Site)) (items : List (Site × Stmt)) (handle : Handle kind) :
    (items.foldl (addSite owner?) table)[handle.index]? =
      table[handle.index]?.map
        (· ++ (items.filter fun item => owner? item.2 = some handle).map Prod.fst) := by
  induction items generalizing table with
  | nil => simp
  | cons item items ih =>
    rw [List.foldl_cons, ih]
    cases howner : owner? item.2 with
    | none => simp [addSite, howner]
    | some owner =>
      by_cases hsame : owner = handle
      · subst hsame
        simp only [addSite, howner, append, Array.getElem?_modify, if_true, Option.map_map]
        congr 1
        funext row
        simp [howner]
      · have hindex : ¬ owner.index = handle.index := fun h => hsame (Handle.ext h)
        simp [addSite, append, howner, hsame, Array.getElem?_modify, hindex]

/-- What a statement does to the table of uses. -/
def addUse (uses : Array Uses) (item : Site × Stmt) : Array Uses :=
  match item.2.route? with
  | some (base, route) => uses.modify base.index (·.note item.1 route)
  | none => uses

theorem getElem?_foldl_addUse (uses : Array Uses) (items : List (Site × Stmt)) (v : VarId)
    (route : Route) :
    (items.foldl addUse uses)[v.index]?.map (·.along route) =
      uses[v.index]?.map fun known => known.along route ++
        (items.filter fun item => item.2.route? = some (v, route)).map Prod.fst := by
  induction items generalizing uses with
  | nil => simp
  | cons item items ih =>
    rw [List.foldl_cons, ih]
    cases hroute : item.2.route? with
    | none => simp [addUse, hroute]
    | some found =>
      obtain ⟨base, noted⟩ := found
      by_cases hsame : base = v
      · subst hsame
        simp only [addUse, hroute, Array.getElem?_modify, if_true, Option.map_map]
        congr 1
        funext known
        by_cases hnoted : noted = route <;> simp [Uses.along_note, hroute, hnoted]
      · have hindex : ¬ base.index = v.index := fun h => hsame (Handle.ext h)
        simp [addUse, hroute, hsame, Array.getElem?_modify, hindex]

/-- What a statement does to the table of returned variables. -/
def addReturn (returns : Array (List VarId)) (item : Site × Stmt) : Array (List VarId) :=
  match item.2.returned? with
  | some value => returns.modify item.1.method.index fun known =>
      if known.contains value then known else known ++ [value]
  | none => returns

/-- A method notes the variables that its own statements return, each once. -/
theorem getElem?_foldl_addReturn (returns : Array (List VarId)) (items : List (Site × Stmt))
    (method : MethodId) :
    (items.foldl addReturn returns)[method.index]? = returns[method.index]?.map
      (((items.filter fun item => item.1.method = method).filterMap fun item =>
        item.2.returned?).foldl
          (fun known value => if known.contains value then known else known ++ [value])) := by
  induction items generalizing returns with
  | nil => simp
  | cons item items ih =>
    rw [List.foldl_cons, ih]
    cases hvalue : item.2.returned? with
    | none => by_cases hsame : item.1.method = method <;> simp [addReturn, hvalue, hsame]
    | some value =>
      by_cases hsame : item.1.method = method
      · subst hsame
        simp only [addReturn, hvalue, Array.getElem?_modify, if_true, Option.map_map]
        congr 1
        funext known
        simp [hvalue]
      · have hindex : ¬ item.1.method.index = method.index := fun h => hsame (Handle.ext h)
        simp [addReturn, hvalue, hsame, Array.getElem?_modify, hindex]

/-- A table of the index that the statements fill on their own is filled by the statements
of all methods in their order. -/
theorem foldl_addMethod {τ : Type} (view : Index → τ) (add : τ → Site × Stmt → τ)
    (hadd : ∀ index item, view (addStmt index item) = add (view index) item)
    (hdeclared : ∀ (index : Index) (declared : Array (List (String × MethodId))),
      view { index with declared } = view index) (methods : List Method) (index : Index) :
    view (methods.foldl addMethod index) =
      (methods.flatMap Method.sites).foldl add (view index) := by
  have hstmts : ∀ (items : List (Site × Stmt)) (index : Index),
      view (items.foldl addStmt index) = items.foldl add (view index) := by
    intro items
    induction items with
    | nil => exact fun _ => rfl
    | cons item items ih =>
      intro index
      rw [List.foldl_cons, ih, hadd]
      rfl
  induction methods generalizing index with
  | nil => rfl
  | cons method methods ih =>
    rw [List.foldl_cons, ih, List.flatMap_cons, List.foldl_append]
    congr 1
    unfold addMethod
    rw [hstmts, hdeclared]

/-- Classes leave the tables that the statements fill alone. -/
theorem foldl_addClass {τ : Type} (view : Index → τ)
    (hview : ∀ (index : Index) (subclasses subinterfaces implementors : Array (List ClassId)),
      view { index with subclasses, subinterfaces, implementors } = view index)
    (classes : List Class) (index : Index) :
    view (classes.foldl addClass index) = view index := by
  have hinterfaces : ∀ (c : Class) (parents : List ClassId) (index : Index),
      view (parents.foldl (addInterface c) index) = view index := by
    intro c parents
    induction parents with
    | nil => exact fun _ => rfl
    | cons parent parents ih =>
      intro index
      rw [List.foldl_cons, ih]
      unfold addInterface
      split
      · exact hview index index.subclasses _ index.implementors
      · exact hview index index.subclasses index.subinterfaces _
  induction classes generalizing index with
  | nil => rfl
  | cons c classes ih =>
    rw [List.foldl_cons, ih]
    unfold addClass
    rw [hinterfaces]
    split
    · exact hview index _ index.subinterfaces index.implementors
    · rfl

theorem uses_addStmt (index : Index) (item : Site × Stmt) :
    (addStmt index item).uses = addUse index.uses item := by
  obtain ⟨site, stmt⟩ := item
  cases stmt with
  | loadField lhs base field => cases base <;> rfl
  | storeField base field rhs => cases base <;> rfl
  | invoke call =>
    simp only [addStmt, addUse, Stmt.route?]
    cases call.base <;> rfl
  | ret value => cases value <;> rfl
  | _ => rfl

theorem staticLoads_addStmt (index : Index) (item : Site × Stmt) :
    (addStmt index item).staticLoads = addSite Stmt.staticLoad? index.staticLoads item := by
  obtain ⟨site, stmt⟩ := item
  cases stmt with
  | loadField lhs base field => cases base <;> rfl
  | storeField base field rhs => cases base <;> rfl
  | invoke call =>
    simp only [addStmt, addSite, Stmt.staticLoad?]
    cases call.base <;> rfl
  | ret value => cases value <;> rfl
  | _ => rfl

theorem staticStores_addStmt (index : Index) (item : Site × Stmt) :
    (addStmt index item).staticStores = addSite Stmt.staticStore? index.staticStores item := by
  obtain ⟨site, stmt⟩ := item
  cases stmt with
  | loadField lhs base field => cases base <;> rfl
  | storeField base field rhs => cases base <;> rfl
  | invoke call =>
    simp only [addStmt, addSite, Stmt.staticStore?]
    cases call.base <;> rfl
  | ret value => cases value <;> rfl
  | _ => rfl

theorem returns_addStmt (index : Index) (item : Site × Stmt) :
    (addStmt index item).returns = addReturn index.returns item := by
  obtain ⟨site, stmt⟩ := item
  cases stmt with
  | loadField lhs base field => cases base <;> rfl
  | storeField base field rhs => cases base <;> rfl
  | invoke call =>
    simp only [addStmt, addReturn, Stmt.returned?]
    cases call.base <;> rfl
  | ret value => cases value <;> rfl
  | _ => rfl

/-- A table that the statements fill, as the fold over all of them. -/
theorem view_ofListing {τ : Type} (view : Index → τ) (add : τ → Site × Stmt → τ)
    (hadd : ∀ index item, view (addStmt index item) = add (view index) item)
    (hdeclared : ∀ (index : Index) (declared : Array (List (String × MethodId))),
      view { index with declared } = view index)
    (hclasses : ∀ (index : Index) (subclasses subinterfaces implementors : Array (List ClassId)),
      view { index with subclasses, subinterfaces, implementors } = view index)
    (listing : Listing) :
    view (ofListing listing) = listing.sites.foldl add (view (empty listing)) := by
  unfold ofListing
  rw [← Array.foldl_toList, foldl_addMethod view add hadd hdeclared, ← Array.foldl_toList,
    foldl_addClass view hclasses]
  rfl

theorem declared_addStmt (index : Index) (item : Site × Stmt) :
    (addStmt index item).declared = index.declared := by
  obtain ⟨site, stmt⟩ := item
  cases stmt with
  | loadField lhs base field => cases base <;> rfl
  | storeField base field rhs => cases base <;> rfl
  | invoke call =>
    simp only [addStmt]
    cases call.base <;> rfl
  | ret value => cases value <;> rfl
  | _ => rfl

/-- The methods that a class declares, the last one first. -/
theorem getElem?_declared_foldl_addMethod (methods : List Method) (index : Index) (id : ClassId) :
    (methods.foldl addMethod index).declared[id.index]? =
      index.declared[id.index]?.map
        (((methods.filter fun m => m.declaringClass = id).map
          fun m => (m.subsignature, m.id)).reverse ++ ·) := by
  have hstmts : ∀ (items : List (Site × Stmt)) (index : Index),
      (items.foldl addStmt index).declared = index.declared := by
    intro items
    induction items with
    | nil => exact fun _ => rfl
    | cons item items ih =>
      intro index
      rw [List.foldl_cons, ih, declared_addStmt]
  induction methods generalizing index with
  | nil => simp
  | cons method methods ih =>
    rw [List.foldl_cons, ih]
    have hdeclared : (addMethod index method).declared =
        index.declared.modify method.declaringClass.index
          ((method.subsignature, method.id) :: ·) := hstmts _ _
    rw [hdeclared]
    by_cases hsame : method.declaringClass = id
    · subst hsame
      simp only [Array.getElem?_modify, if_true, Option.map_map]
      congr 1
      funext known
      simp
    · have hindex : ¬ method.declaringClass.index = id.index := fun h => hsame (Handle.ext h)
      simp [hsame, Array.getElem?_modify, hindex]

end Index

namespace Program

variable {program : Program}

/-- The uses of a variable are the statements that go through it, in the order of the
program. -/
theorem uses_along (program : Program) (v : VarId) (route : Route) :
    (program.uses v).along route =
      (program.listing.sites.filter fun item => item.2.route? = some (v, route)).map Prod.fst := by
  have hindex : program.index.uses =
      program.listing.sites.foldl Index.addUse (Index.empty program.listing).uses := by
    rw [program.index_eq]
    exact Index.view_ofListing Index.uses Index.addUse Index.uses_addStmt (fun _ _ => rfl)
      (fun _ _ _ _ => rfl) program.listing
  have hrow := Index.getElem?_foldl_addUse (Index.empty program.listing).uses
    program.listing.sites v route
  rw [← hindex] at hrow
  by_cases hlt : v.index < program.listing.vars.size
  · simp only [Index.empty, Array.getElem?_replicate, hlt, if_true, Option.map_some] at hrow
    obtain ⟨known, hknown, halong⟩ := Option.map_eq_some_iff.mp hrow
    rw [uses, hknown, Option.getD_some, halong]
    cases route <;> rfl
  · simp only [Index.empty, Array.getElem?_replicate, hlt, if_false, Option.map_none,
      Option.map_eq_none_iff] at hrow
    rw [uses, hrow, Option.getD_none]
    have hnone :
        (program.listing.sites.filter fun item => item.2.route? = some (v, route)) = [] := by
      rw [List.filter_eq_nil_iff]
      rintro ⟨site, stmt⟩ hmem hroute
      have hstmt := mem_listing_sites_iff.mp hmem
      have hroute : stmt.route? = some (v, route) := by simpa using hroute
      exact hlt (var_lt_of_getStmt hstmt
        (List.mem_append_left _ (Stmt.mem_uses_of_route? hroute)))
    rw [hnone]
    cases route <;> rfl

/-- The sites of some statements of the program. -/
theorem mem_sites_filter_iff {p : Stmt → Bool} {site : Site} :
    site ∈ (program.listing.sites.filter fun item => p item.2).map Prod.fst ↔
      ∃ stmt, program.getStmt site = .ok stmt ∧ p stmt = true := by
  simp only [List.mem_map, List.mem_filter, Prod.exists, exists_and_right, exists_eq_right,
    mem_listing_sites_iff]

theorem mem_uses_along_iff {v : VarId} {route : Route} {site : Site} :
    site ∈ (program.uses v).along route ↔
      ∃ stmt, program.getStmt site = .ok stmt ∧ stmt.route? = some (v, route) := by
  rw [uses_along, mem_sites_filter_iff (p := fun stmt => stmt.route? = some (v, route))]
  simp only [decide_eq_true_eq]

/-- A row of a table of static accesses; only the fields of the program have rows. -/
theorem getElem?_static {view : Index → Array (List Site)} {owner? : Stmt → Option FieldId}
    (hadd : ∀ index item, view (Index.addStmt index item) =
      Index.addSite owner? (view index) item)
    (hdeclared : ∀ (index : Index) (declared : Array (List (String × MethodId))),
      view { index with declared } = view index)
    (hclasses : ∀ (index : Index) (subclasses subinterfaces implementors : Array (List ClassId)),
      view { index with subclasses, subinterfaces, implementors } = view index)
    (hempty : view (Index.empty program.listing) = Array.replicate program.listing.fields.size [])
    (field : FieldId) :
    (view program.index)[field.index]?.getD [] =
      if field.index < program.listing.fields.size then
        (program.listing.sites.filter fun item => owner? item.2 = some field).map Prod.fst
      else [] := by
  rw [program.index_eq, Index.view_ofListing view _ hadd hdeclared hclasses, hempty,
    Index.getElem?_foldl_addSite]
  by_cases hlt : field.index < program.listing.fields.size <;> simp [hlt]

theorem staticLoads_eq (program : Program) (field : FieldId) :
    program.staticLoads field =
      if field.index < program.listing.fields.size then
        (program.listing.sites.filter fun item =>
          item.2.staticLoad? = some field).map Prod.fst
      else [] :=
  getElem?_static Index.staticLoads_addStmt (fun _ _ => rfl) (fun _ _ _ _ => rfl) rfl field

theorem staticStores_eq (program : Program) (field : FieldId) :
    program.staticStores field =
      if field.index < program.listing.fields.size then
        (program.listing.sites.filter fun item =>
          item.2.staticStore? = some field).map Prod.fst
      else [] :=
  getElem?_static Index.staticStores_addStmt (fun _ _ => rfl) (fun _ _ _ _ => rfl) rfl field

theorem mem_staticLoads_iff {field : FieldId} (hlt : field.index < program.listing.fields.size)
    {site : Site} :
    site ∈ program.staticLoads field ↔
      ∃ stmt, program.getStmt site = .ok stmt ∧ stmt.staticLoad? = some field := by
  rw [staticLoads_eq, if_pos hlt,
    mem_sites_filter_iff (p := fun stmt => stmt.staticLoad? = some field)]
  simp only [decide_eq_true_eq]

theorem mem_staticStores_iff {field : FieldId} (hlt : field.index < program.listing.fields.size)
    {site : Site} :
    site ∈ program.staticStores field ↔
      ∃ stmt, program.getStmt site = .ok stmt ∧ stmt.staticStore? = some field := by
  rw [staticStores_eq, if_pos hlt,
    mem_sites_filter_iff (p := fun stmt => stmt.staticStore? = some field)]
  simp only [decide_eq_true_eq]

/-- Entries that stand at their own positions stand in the order of their handles. -/
theorem pairwise_id {kind : Kind} {α : Type} {table : Array α} {id : α → Handle kind}
    (hplace : ∀ {i : Nat} {a : α}, table[i]? = some a → (id a).index = i) :
    table.toList.Pairwise fun a b => id a < id b := by
  rw [List.pairwise_iff_getElem]
  intro i j hi hj hlt
  have hentry : ∀ {k : Nat} (hk : k < table.toList.length), (id table.toList[k]).index = k := by
    intro k hk
    apply hplace
    simp at hk
    simp [hk]
  change (id table.toList[i]).index < (id table.toList[j]).index
  rw [hentry hi, hentry hj]
  exact hlt

/-- The methods stand in the order of their handles. -/
theorem pairwise_methods (program : Program) :
    program.listing.methods.toList.Pairwise fun a b => a.id < b.id :=
  pairwise_id program.inRange.method_id

/-- The classes stand in the order of their handles. -/
theorem pairwise_classes (program : Program) :
    program.listing.classes.toList.Pairwise fun a b => a.id < b.id :=
  pairwise_id program.inRange.class_id

/-- Of the statements of the program, those at sites of a method are the ones of the method. -/
theorem filter_listing_sites {id : MethodId} {method : Method}
    (hmethod : program.getMethod id = .ok method) :
    (program.listing.sites.filter fun item => item.1.method = id) = method.sites := by
  obtain rfl := id_of_getMethod hmethod
  have hdistinct : program.listing.methods.toList.Pairwise fun a b => a.id ≠ b.id :=
    program.pairwise_methods.imp fun hlt heq => absurd (heq ▸ hlt) (Nat.lt_irrefl _)
  exact filter_flatMap_owner hdistinct (fun _ _ hitem => (Method.mem_sites_iff.mp hitem).1)
    (mem_methods_iff.mpr hmethod)

/-- A method returns the variables of its return statements, in the order in which they first
occur. -/
theorem returnVars_eq (program : Program) (id : MethodId) :
    program.returnVars id = (program.getMethod id).map fun method =>
      (method.stmts.toList.filterMap Stmt.returned?).eraseDups := by
  have hindex : program.index.returns =
      program.listing.sites.foldl Index.addReturn (Index.empty program.listing).returns := by
    rw [program.index_eq]
    exact Index.view_ofListing Index.returns Index.addReturn Index.returns_addStmt
      (fun _ _ => rfl) (fun _ _ _ _ => rfl) program.listing
  by_cases hlt : id.index < program.listing.methods.size
  · obtain ⟨method, hmethod⟩ := exists_getMethod hlt
    have hstmts : method.sites.filterMap (fun item => item.2.returned?) =
        method.stmts.toList.filterMap Stmt.returned? := by
      rw [← List.zipIdx_map_fst 0 method.stmts.toList, Method.sites, List.filterMap_map,
        List.filterMap_map]
      rfl
    have hrow : program.index.returns[id.index]? =
        some (method.stmts.toList.filterMap Stmt.returned?).eraseDups := by
      rw [hindex, Index.getElem?_foldl_addReturn, filter_listing_sites hmethod, hstmts]
      simp only [foldl_noteNew]
      simp [Index.empty, hlt]
    rw [returnVars, Handle.lookup_eq_ok_iff.mpr hrow, hmethod]
    rfl
  · have hrow : program.index.returns[id.index]? = none := by
      rw [hindex, Index.getElem?_foldl_addReturn]
      simp [Index.empty, hlt]
    have hmethod : program.listing.methods[id.index]? = none := by
      simpa using hlt
    simp only [returnVars, getMethod, Handle.lookup, hrow, hmethod]
    rfl

theorem nodup_returnVars {method : MethodId} {returned : List VarId}
    (h : program.returnVars method = .ok returned) : returned.Nodup := by
  rw [returnVars_eq] at h
  cases hmethod : program.getMethod method with
  | error fault => simp [hmethod, Except.map] at h
  | ok found =>
    simp only [hmethod, Except.map, Except.ok.injEq] at h
    exact h ▸ nodup_eraseDups _

/-- A method of the program has a row of returned variables, and these are the variables
that its statements return. -/
theorem exists_returnVars {method : MethodId}
    (hlt : method.index < program.listing.methods.size) :
    ∃ returned, program.returnVars method = .ok returned ∧
      ∀ v, v ∈ returned ↔
        ∃ site stmt, site.method = method ∧ program.getStmt site = .ok stmt ∧
          stmt.returned? = some v := by
  obtain ⟨found, hfound⟩ := exists_getMethod hlt
  refine ⟨_, by rw [returnVars_eq, hfound]; rfl, fun v => ?_⟩
  simp only [List.mem_eraseDups, List.mem_filterMap, Array.mem_toList_iff]
  constructor
  · rintro ⟨stmt, hstmt, hvalue⟩
    obtain ⟨index, hindex⟩ := Array.mem_iff_getElem?.mp hstmt
    exact ⟨⟨method, index⟩, stmt, rfl, getStmt_eq_ok_iff.mpr ⟨found, hfound, hindex⟩, hvalue⟩
  · rintro ⟨site, stmt, rfl, hstmt, hvalue⟩
    obtain ⟨-, hmem⟩ := Method.mem_sites_iff.mp ((mem_sites_iff hfound).mpr ⟨rfl, hstmt⟩)
    exact ⟨stmt, Array.mem_of_getElem? hmem, hvalue⟩

/-- `program.Declares id subsignature found`: of the methods that a class declares with a
subsignature, `found` is the last one. -/
structure Declares (program : Program) (id : ClassId) (subsignature : String)
    (found : MethodId) : Prop where
  declared : ∃ method, program.getMethod found = .ok method ∧ method.declaringClass = id ∧
    method.subsignature = subsignature
  last : ∀ other method, program.getMethod other = .ok method → method.declaringClass = id →
    method.subsignature = subsignature → other ≤ found

theorem Declares.unique {id : ClassId} {subsignature : String} {found found' : MethodId}
    (h : program.Declares id subsignature found) (h' : program.Declares id subsignature found') :
    found = found' := by
  obtain ⟨method, hmethod, hclass, hsubsignature⟩ := h.declared
  obtain ⟨method', hmethod', hclass', hsubsignature'⟩ := h'.declared
  exact Handle.ext (Nat.le_antisymm (h'.last _ _ hmethod hclass hsubsignature)
    (h.last _ _ hmethod' hclass' hsubsignature'))

/-- The row of what a class declares, the last method first. -/
theorem declared_eq (program : Program) (id : ClassId) :
    program.index.declared[id.index]? = (Index.empty program.listing).declared[id.index]?.map
      (((program.listing.methods.toList.filter fun m => m.declaringClass = id).map
        fun m => (m.subsignature, m.id)).reverse ++ ·) := by
  rw [program.index_eq]
  unfold Index.ofListing
  rw [← Array.foldl_toList, Index.getElem?_declared_foldl_addMethod, ← Array.foldl_toList]
  congr 2
  exact Index.foldl_addClass Index.declared (fun _ _ _ _ => rfl) _ _

/-- What a class declares is found by a scan of the methods from the last one on. -/
theorem declared?_eq {id : ClassId} (hlt : id.index < program.listing.classes.size)
    (subsignature : String) :
    program.declared? id subsignature = (program.listing.methods.toList.reverse.find?
      fun m => m.declaringClass = id ∧ m.subsignature = subsignature).map Method.id := by
  have hscan : ∀ methods : List Method,
      ((methods.filter fun m => m.declaringClass = id).map
        fun m => (m.subsignature, m.id)).lookup subsignature =
      (methods.find? fun m => m.declaringClass = id ∧ m.subsignature = subsignature).map
        Method.id := by
    intro methods
    induction methods with
    | nil => rfl
    | cons method methods ih =>
      by_cases hclass : method.declaringClass = id
      · by_cases hsubsignature : method.subsignature = subsignature
        · simp [hclass, hsubsignature]
        · simp [hclass, hsubsignature, lookup_cons_ite, Ne.symm hsubsignature, ih]
      · simp [hclass, ih]
  rw [declared?, declared_eq, ← hscan, List.filter_reverse, List.map_reverse]
  simp [Index.empty, hlt]

/-- The method that a scan from the last one on finds first is the last one. -/
theorem declares_of_find? {id : ClassId} {subsignature : String} {method : Method}
    (h : program.listing.methods.toList.reverse.find?
      (fun m => m.declaringClass = id ∧ m.subsignature = subsignature) = some method) :
    program.Declares id subsignature method.id := by
  have hdescending : program.listing.methods.toList.reverse.Pairwise fun a b => b.id < a.id :=
    List.pairwise_reverse.mpr program.pairwise_methods
  obtain ⟨hfound, before, after, hsplit, hbefore⟩ := List.find?_eq_some_iff_append.mp h
  obtain ⟨hclass, hsubsignature⟩ := of_decide_eq_true hfound
  have hmem : ∀ {m : Method}, m ∈ program.listing.methods.toList ↔
      m ∈ before ∨ m = method ∨ m ∈ after := by
    intro m
    rw [← List.mem_reverse, hsplit, List.mem_append, List.mem_cons]
  refine ⟨⟨method, mem_methods_iff.mp (hmem.mpr (.inr (.inl rfl))), hclass, hsubsignature⟩, ?_⟩
  intro other m hm hclass' hsubsignature'
  obtain rfl := id_of_getMethod hm
  rcases hmem.mp (mem_methods_iff.mpr hm) with hfirst | rfl | hlater
  · simpa [hclass', hsubsignature'] using hbefore m hfirst
  · exact Nat.le_refl _
  · rw [hsplit] at hdescending
    have hlt := (List.pairwise_cons.mp (List.pairwise_append.mp hdescending).2.1).1 m hlater
    exact Nat.le_of_lt hlt

theorem declares_of_declared? {id : ClassId} {subsignature : String} {found : MethodId}
    (h : program.declared? id subsignature = some found) :
    program.Declares id subsignature found := by
  have hlt : id.index < program.listing.classes.size := by
    by_contra hge
    simp [declared?, declared_eq, Index.empty, hge] at h
  rw [declared?_eq hlt, Option.map_eq_some_iff] at h
  obtain ⟨method, hfind, rfl⟩ := h
  exact declares_of_find? hfind

/-- A class that declares a method finds one with the subsignature of the method. -/
theorem exists_declared? {id : MethodId} {method : Method}
    (hmethod : program.getMethod id = .ok method) :
    ∃ found, program.declared? method.declaringClass method.subsignature = some found := by
  have hlt := program.inRange.method_class (getMethod_eq_ok_iff.mp hmethod)
  have hsome : (program.listing.methods.toList.reverse.find? fun m =>
      m.declaringClass = method.declaringClass ∧ m.subsignature = method.subsignature).isSome := by
    rw [List.find?_isSome]
    exact ⟨method, List.mem_reverse.mpr (mem_methods_iff.mpr (id_of_getMethod hmethod ▸ hmethod)),
      by simp⟩
  obtain ⟨last, hlast⟩ := Option.isSome_iff_exists.mp hsome
  exact ⟨last.id, by rw [declared?_eq hlt, hlast, Option.map_some]⟩

/-- The index finds the last one of the methods that a class declares with a subsignature. -/
theorem declared?_eq_some_iff {id : ClassId} {subsignature : String} {found : MethodId} :
    program.declared? id subsignature = some found ↔ program.Declares id subsignature found := by
  refine ⟨declares_of_declared?, fun h => ?_⟩
  obtain ⟨method, hmethod, rfl, rfl⟩ := h.declared
  obtain ⟨last, hlast⟩ := exists_declared? hmethod
  rw [hlast, (declares_of_declared? hlast).unique h]

/-- What a class declares is a method of the program with that subsignature. -/
theorem getMethod_of_declared? {id : ClassId} {subsignature : String} {found : MethodId}
    (h : program.declared? id subsignature = some found) :
    ∃ method, program.getMethod found = .ok method ∧ method.declaringClass = id ∧
      method.subsignature = subsignature :=
  (declared?_eq_some_iff.mp h).declared

end Program

end ObjectFlow
