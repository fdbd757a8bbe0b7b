import ObjectFlow.Proofs.PointsTo.Soundness

/-!
# Longer contexts are more precise

Two policies are compared by a projection of contexts: a function that forgets what the
coarse policy does not see and that commutes with every selection of a context.  Then what
the fine policy derives, the coarse one derives under projected contexts, rule by rule, and
since the answers of a result speak of derivations only, every answer of the fine analysis is
one of the coarse analysis.

Contexts of calls and of objects are projected by functions of their own.  With call sites
the last sites are kept.  With receivers a context of a call is a context of an object with
one more mark, so that a coarse policy whose objects have short contexts never sees more than
one mark beyond them, whatever depth it allows.
-/

namespace ObjectFlow.PointsTo

namespace Contexts

variable {ε ε' : Type}

@[simp]
theorem lastOf_nil (limit : Nat) : lastOf limit ([] : List ε) = [] := by
  simp [lastOf]

/-- A part that is appended counts for the limit. -/
theorem lastOf_append_singleton (limit : Nat) (elems : List ε) (elem : ε) :
    lastOf limit elems ++ [elem] = lastOf (limit + 1) (elems ++ [elem]) := by
  have hsame : (elems ++ [elem]).length - (limit + 1) = elems.length - limit := by simp
  rw [lastOf, lastOf, hsame, List.drop_append_of_le_length (Nat.sub_le _ _)]

theorem map_lastOf (f : ε → ε') (limit : Nat) (elems : List ε) :
    (lastOf limit elems).map f = lastOf limit (elems.map f) := by
  simp [lastOf, List.map_drop]

end Contexts

open Contexts (lastOf lastOf_lastOf lastOf_append_singleton map_lastOf)

section Map

variable {κ κ' ω ω' : Type}

/-- A place under other names of contexts and objects. -/
def Place.map (f : κ → κ') (g : ω → ω') : Place κ ω → Place κ' ω'
  | .var context v => .var (f context) v
  | .staticField field => .staticField field
  | .instanceField object field => .instanceField (g object) field
  | .arraySlots object => .arraySlots (g object)

/-- A judgement under other names of contexts and objects. -/
def Judgement.map (f : κ → κ') (g : ω → ω') : Judgement κ ω → Judgement κ' ω'
  | .reachable context method => .reachable (f context) method
  | .pointsTo place object => .pointsTo (place.map f g) (g object)
  | .flows source target => .flows (source.map f g) (target.map f g)
  | .calls kind context site calleeContext callee =>
    .calls kind (f context) site (f calleeContext) callee

end Map

/-- An object under a projected context. -/
def Origin.project (heap : Trail → Trail) (origin : Origin) : Origin :=
  ⟨heap origin.context, origin.alloc⟩

/-- Projecting the contexts of calls by `call` and those of objects by `heap` turns what
`fine` selects into what `coarse` selects. -/
structure Projects (program : Program) (fine coarse : Policy) (call heap : Trail → Trail) :
    Prop where
  root : call [] = []
  alloc : ∀ context, heap (fine.heapParts context) = coarse.heapParts (call context)
  static : ∀ context site,
    call (fine.staticParts context (.callSite site)) =
      coarse.staticParts (call context) (.callSite site)
  receiver : ∀ context owner site alloc container,
    program.getMethod alloc.method = .ok container →
      call (fine.instanceParts context owner (.callSite site) (.object alloc)
          (.type container.declaringClass)) =
        coarse.instanceParts (call context) (heap owner) (.callSite site) (.object alloc)
          (.type container.declaringClass)

section Derivations

variable {program : Program} {fine coarse : Policy} {call heap : Trail → Trail}

theorem Dispatches.project (hprojects : Projects program fine coarse call heap)
    {context trail : Trail} {site : Site} {invocation : Call} {object : Origin}
    {callee : MethodId}
    (h : Dispatches program fine context site invocation object trail callee) :
    Dispatches program coarse (call context) site invocation (object.project heap) (call trail)
      callee := by
  obtain ⟨container, hcontainer, hselected⟩ := h.selected
  refine ⟨h.resolved, container, hcontainer, ?_⟩
  rw [hselected]
  exact hprojects.receiver _ _ _ _ _ hcontainer

/-- What the fine policy derives, the coarse one derives under projected contexts. -/
theorem Derives.project (hprojects : Projects program fine coarse call heap)
    {j : Judgement Trail Origin} (h : Derives program fine j) :
    Derives program coarse (j.map call (Origin.project heap)) := by
  induction h with
  | entry hentry =>
    have hroot : Derives program coarse (.reachable [] _) := .entry hentry
    rwa [← hprojects.root] at hroot
  | alloc _ hstmt ih =>
    have hpoints := Derives.alloc ih hstmt
    rwa [← hprojects.alloc] at hpoints
  | copy _ hstmt ih => exact .copy ih hstmt
  | staticLoad _ hstmt ih => exact .staticLoad ih hstmt
  | staticStore _ hstmt ih => exact .staticStore ih hstmt
  | staticCall _ hstmt hstatic hcallee ih =>
    have hcalls := Derives.staticCall ih hstmt hstatic hcallee
    rwa [← hprojects.static] at hcalls
  | fieldLoad _ hstmt ih => exact .fieldLoad ih hstmt
  | fieldStore _ hstmt ih => exact .fieldStore ih hstmt
  | arrayLoad _ hstmt ih => exact .arrayLoad ih hstmt
  | arrayStore _ hstmt ih => exact .arrayStore ih hstmt
  | receiverCall _ hstmt hreceiver hdispatch ih =>
    exact .receiverCall ih hstmt hreceiver (hdispatch.project hprojects)
  | this _ hstmt hreceiver hdispatch hmethod hthis ih =>
    exact .this ih hstmt hreceiver (hdispatch.project hprojects) hmethod hthis
  | callee _ ih => exact .callee ih
  | argument _ hstmt hmethod hbound ih => exact .argument ih hstmt hmethod hbound
  | result _ hstmt hreturned hvalue hresult ih =>
    exact .result ih hstmt hreturned hvalue hresult
  | flow _ _ ihFlow ihSource => exact .flow ihFlow ihSource

end Derivations

section Projections

variable (program : Program) {k k' hk hk' : Nat}

/-- Without contexts everything is projected to the empty one. -/
theorem projects_insensitive (fine : Policy) (heapDepth : Nat) :
    Projects program fine ⟨.insensitive, heapDepth⟩ (fun _ => []) (fun _ => []) :=
  ⟨rfl, fun _ => rfl, fun _ _ => rfl, fun _ _ _ _ _ _ => rfl⟩

/-- With call sites the last sites of a context are kept. -/
theorem projects_callSite (hdepth : k' ≤ k) (hheap : hk' ≤ hk) :
    Projects program ⟨.callSite k, hk⟩ ⟨.callSite k', hk'⟩ (lastOf k') (lastOf (min hk' k')) := by
  have hcall : ∀ (context : Trail) (site : Site),
      lastOf k' (lastOf k (context ++ [.callSite site])) =
        lastOf k' (lastOf k' context ++ [.callSite site]) := by
    intro context site
    rw [lastOf_append_singleton, lastOf_lastOf, lastOf_lastOf, Nat.min_eq_left hdepth,
      Nat.min_eq_left (Nat.le_succ k')]
  refine ⟨Contexts.lastOf_nil _, fun context => ?_, hcall,
    fun context _ site _ _ _ => hcall context site⟩
  change lastOf (min hk' k') (lastOf hk context) = lastOf hk' (lastOf k' context)
  rw [lastOf_lastOf, lastOf_lastOf, Nat.min_eq_left ((Nat.min_le_left hk' k').trans hheap)]

/-- The context of a callee on a receiver is projected like that of its receiver, with one
more mark. -/
theorem lastOf_receiver (hdepth : k' ≤ k) (owner : Trail) (mark : Mark) :
    lastOf (min k' (hk' + 1)) (lastOf k (owner ++ [mark])) =
      lastOf k' (lastOf (min hk' k') owner ++ [mark]) := by
  have hlimit : min (min k' (hk' + 1)) k = min k' (min hk' k' + 1) := by omega
  rw [lastOf_append_singleton, lastOf_lastOf, lastOf_lastOf, hlimit]

/-- The context of an object is a part of the context of the call that allocates it. -/
theorem lastOf_allocated (hheap : hk' ≤ hk) (context : Trail) :
    lastOf (min hk' k') (lastOf hk context) = lastOf hk' (lastOf (min k' (hk' + 1)) context) := by
  have hlimit : min (min hk' k') hk = min hk' (min k' (hk' + 1)) := by omega
  rw [lastOf_lastOf, lastOf_lastOf, hlimit]

theorem projects_object (hdepth : k' ≤ k) (hheap : hk' ≤ hk) :
    Projects program ⟨.object k, hk⟩ ⟨.object k', hk'⟩ (lastOf (min k' (hk' + 1)))
      (lastOf (min hk' k')) :=
  ⟨Contexts.lastOf_nil _, lastOf_allocated hheap, fun _ _ => rfl,
    fun _ owner _ _ _ _ => lastOf_receiver hdepth owner _⟩

theorem projects_type (hdepth : k' ≤ k) (hheap : hk' ≤ hk) :
    Projects program ⟨.type k, hk⟩ ⟨.type k', hk'⟩ (lastOf (min k' (hk' + 1)))
      (lastOf (min hk' k')) :=
  ⟨Contexts.lastOf_nil _, lastOf_allocated hheap, fun _ _ => rfl,
    fun _ owner _ _ _ _ => lastOf_receiver hdepth owner _⟩

/-- A receiver as the class whose method allocated it. -/
def Mark.allocator (program : Program) : Mark → Mark
  | .object alloc =>
    match program.getMethod alloc.method with
    | .ok container => .type container.declaringClass
    | .error _ => .object alloc
  | mark => mark

/-- Types instead of receivers: each receiver is projected to its allocating class. -/
theorem projects_allocator (k heapDepth : Nat) :
    Projects program ⟨.object k, heapDepth⟩ ⟨.type k, heapDepth⟩
      (List.map (Mark.allocator program)) (List.map (Mark.allocator program)) where
  root := rfl
  alloc _ := map_lastOf _ _ _
  static _ _ := rfl
  receiver context owner site alloc container hcontainer := by
    have hmark : Mark.allocator program (.object alloc) = .type container.declaringClass := by
      simp [Mark.allocator, hcontainer]
    simp [Policy.instanceParts, map_lastOf, hmark]

end Projections

/-- The settings `fine` tell at least as much apart as `coarse`: the latter have no contexts,
or contexts of the same kind that are no longer, or classes in the place of receivers. -/
inductive Sharper (fine coarse : Config.PointsTo) : Prop where
  | insensitive (hcoarse : coarse.context = .insensitive)
  | deeper (hkind : fine.context.name = coarse.context.name)
    (hdepth : coarse.context.depth ≤ fine.context.depth)
    (hheap : coarse.effectiveHeapDepth ≤ fine.effectiveHeapDepth)
  | receivers {k : Nat} (hfine : fine.context = .object k) (hcoarse : coarse.context = .type k)
    (hheap : coarse.effectiveHeapDepth = fine.effectiveHeapDepth)

/-- The contexts of sharper settings can be projected. -/
theorem Sharper.exists_projects {fine coarse : Config.PointsTo} (h : Sharper fine coarse)
    (program : Program) :
    ∃ call heap, Projects program (.ofConfig fine) (.ofConfig coarse) call heap := by
  unfold Policy.ofConfig
  cases h with
  | insensitive hcoarse =>
    rw [hcoarse]
    exact ⟨_, _, projects_insensitive program _ _⟩
  | deeper hkind hdepth hheap =>
    cases hfine : fine.context <;> cases hcoarse : coarse.context <;>
      rw [hfine, hcoarse] at hkind hdepth <;>
      simp only [Config.Strategy.name, String.reduceEq] at hkind
    case insensitive => exact ⟨_, _, projects_insensitive program _ _⟩
    case callSite => exact ⟨_, _, projects_callSite program hdepth hheap⟩
    case object => exact ⟨_, _, projects_object program hdepth hheap⟩
    case type => exact ⟨_, _, projects_type program hdepth hheap⟩
  | receivers hfine hcoarse hheap =>
    rw [hfine, hcoarse, hheap]
    exact ⟨_, _, projects_allocator program _ _⟩

namespace Result

/-- The allocations of the objects that a variable points to. -/
def allocations (result : Result) (v : VarId) : Except Fault (List Site) := do
  (← result.pointsTo v).mapM fun obj => return (← result.state.heap.get obj).alloc

variable {program : Program} {policy : Policy} {result : Result}

namespace Complete

theorem mem_reachableMethods_iff_derives (h : result.Complete program policy)
    {method : MethodId} : method ∈ result.reachableMethods ↔
      ∃ trail, Derives program policy (.reachable trail method) := by
  constructor
  · intro hmem
    obtain ⟨context, hholds⟩ := mem_reachableMethods_iff.mp hmem
    obtain ⟨named, hreads, hderives⟩ := h.reaches.justified hholds
    cases hreads with
    | reachable => exact ⟨_, hderives⟩
  · rintro ⟨trail, hderives⟩
    exact h.mem_reachableMethods hderives

theorem mem_calleesOf_callGraph_iff_derives (h : result.Complete program policy) {site : Site}
    {callee : MethodId} : callee ∈ result.callGraph.calleesOf site ↔
      ∃ kind trail trail', Derives program policy (.calls kind trail site trail' callee) := by
  rw [mem_calleesOf_callGraph_iff]
  constructor
  · intro hmem
    obtain ⟨kind, context, selected, hholds⟩ := mem_calleesOf_iff.mp hmem
    obtain ⟨named, hreads, hderives⟩ := h.reaches.justified hholds
    cases hreads with
    | calls => exact ⟨_, _, _, hderives⟩
  · rintro ⟨kind, trail, trail', hderives⟩
    exact h.mem_calleesOf hderives

/-- The allocations of a variable can be told, and are those that the rules derive. -/
theorem exists_allocations (h : result.Complete program policy) (v : VarId) :
    ∃ sites, result.allocations v = .ok sites ∧ ∀ site, site ∈ sites ↔
      ∃ trail context, Derives program policy (.pointsTo (.var trail v) ⟨context, site⟩) := by
  obtain ⟨objects, hobjects, hmem⟩ := exists_pointsTo h.reaches v
  have hlookup : ∀ obj site, (do return (← result.state.heap.get obj).alloc) =
      (Except.ok site : Except Fault Site) ↔
        ∃ entry, result.state.heap.objects.items[obj.index]? = some entry ∧ entry.alloc = site := by
    simp [bind_eq_ok_iff, Heap.get, Handle.lookup_eq_ok_iff]
  have hread : ∀ obj ∈ objects, ∃ trail context entry,
      result.state.heap.objects.items[obj.index]? = some entry ∧
        Derives program policy (.pointsTo (.var trail v) ⟨context, entry.alloc⟩) := by
    intro obj hobj
    obtain ⟨context, id, object, hholds, hobject, rfl⟩ := (hmem obj).mp hobj
    obtain ⟨named, hreads, hderives⟩ := h.reaches.justified hholds
    cases hreads with
    | @pointsTo _ _ _ origin hplace hreadsObject =>
      cases hplace with
      | @var _ trail =>
        obtain ⟨object', entry, hobject', -, hentry, halloc⟩ := hreadsObject
        rw [hobject] at hobject'
        cases hobject'
        refine ⟨trail, origin.context, entry, hentry, ?_⟩
        rw [halloc]
        exact hderives
  have hfound : ∀ obj ∈ objects, ∃ site, (do return (← result.state.heap.get obj).alloc) =
      (Except.ok site : Except Fault Site) := by
    intro obj hobj
    obtain ⟨-, -, entry, hentry, -⟩ := hread obj hobj
    exact ⟨entry.alloc, (hlookup obj _).mpr ⟨entry, hentry, rfl⟩⟩
  obtain ⟨sites, hsites⟩ := exists_mapM_ok hfound
  refine ⟨sites, by simp only [allocations, hobjects, ok_bind]; exact hsites, fun site => ?_⟩
  rw [mem_mapM_iff hsites]
  constructor
  · rintro ⟨obj, hobj, hsite⟩
    obtain ⟨entry, hentry, rfl⟩ := (hlookup obj site).mp hsite
    obtain ⟨trail, context, entry', hentry', hderives⟩ := hread obj hobj
    rw [hentry] at hentry'
    cases hentry'
    exact ⟨trail, context, hderives⟩
  · rintro ⟨trail, context, hderives⟩
    obtain ⟨context', id, hholds, -, object, entry, hobject, -, hentry, halloc⟩ :=
      (h.knows hderives).pointsTo
    exact ⟨object.object, (hmem _).mpr ⟨context', id, object, hholds, hobject, rfl⟩,
      (hlookup _ _).mpr ⟨entry, hentry, halloc⟩⟩

end Complete

end Result

/-- More context only sharpens the analysis.  With settings that pass their check, of which
`fine` tell at least as much apart as `coarse`, every allocation that a variable points to,
every reachable method and every edge of the call graph of the fine result is one of the
coarse result. -/
theorem run_sharpens (program : Program) {fine coarse : Config.PointsTo}
    (hfine : fine.validate = .ok ()) (hcoarse : coarse.validate = .ok ())
    (hsharper : Sharper fine coarse) :
    ∃ result result', run program fine = .ok result ∧ run program coarse = .ok result' ∧
      (∀ v, ∃ sites sites', result.allocations v = .ok sites ∧ result'.allocations v = .ok sites' ∧
        sites ⊆ sites') ∧
      result.reachableMethods ⊆ result'.reachableMethods ∧
      ∀ site, result.callGraph.calleesOf site ⊆ result'.callGraph.calleesOf site := by
  obtain ⟨result, hrun, hcomplete⟩ := exists_run program hfine
  obtain ⟨result', hrun', hcomplete'⟩ := exists_run program hcoarse
  obtain ⟨call, heap, hprojects⟩ := hsharper.exists_projects program
  refine ⟨result, result', hrun, hrun', fun v => ?_, fun method hmem => ?_,
    fun site callee hmem => ?_⟩
  · obtain ⟨sites, hsites, hmem⟩ := hcomplete.exists_allocations v
    obtain ⟨sites', hsites', hmem'⟩ := hcomplete'.exists_allocations v
    refine ⟨sites, sites', hsites, hsites', fun site hsite => ?_⟩
    obtain ⟨trail, context, hderives⟩ := (hmem site).mp hsite
    exact (hmem' site).mpr ⟨_, _, hderives.project hprojects⟩
  · obtain ⟨trail, hderives⟩ := hcomplete.mem_reachableMethods_iff_derives.mp hmem
    exact hcomplete'.mem_reachableMethods_iff_derives.mpr ⟨_, hderives.project hprojects⟩
  · obtain ⟨kind, trail, trail', hderives⟩ :=
      hcomplete.mem_calleesOf_callGraph_iff_derives.mp hmem
    exact hcomplete'.mem_calleesOf_callGraph_iff_derives.mpr
      ⟨_, _, _, hderives.project hprojects⟩

/-- Receivers against their classes, at depth two, on `boxProgram`. -/
theorem run_sharpens_box : Sharper ⟨.object 2, some 1⟩ ⟨.type 2, none⟩ ∧
    ∃ result result', run boxProgram ⟨.object 2, some 1⟩ = .ok result ∧
      run boxProgram ⟨.type 2, none⟩ = .ok result' ∧
      ∃ sites sites', result.allocations ⟨1⟩ = .ok sites ∧ result'.allocations ⟨1⟩ = .ok sites' ∧
        sites ⊆ sites' := by
  have hsharper : Sharper ⟨.object 2, some 1⟩ ⟨.type 2, none⟩ := .receivers rfl rfl rfl
  obtain ⟨result, result', hrun, hrun', hallocations, -⟩ :=
    run_sharpens boxProgram (by decide) (by decide) hsharper
  exact ⟨hsharper, result, result', hrun, hrun', hallocations ⟨1⟩⟩

end ObjectFlow.PointsTo
