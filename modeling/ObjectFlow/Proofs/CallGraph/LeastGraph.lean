import ObjectFlow.Proofs.CallGraph.Targets

/-!
# The least call graph of the hierarchy

A call graph is closed when it starts with the entry methods of the program, and has every target
of every call of a method that it reaches.  The graph that the survey of the hierarchy leaves
behind is closed, lists everything once, and is part of every other closed one.
-/

namespace ObjectFlow

open Iteration (Ends attempt)
open Relation (ReflTransGen)

namespace Program

variable {program : Program} {method : MethodId}

/-- `program.IsCall edge`: the statement at the site of an edge is a call of its kind, and its
callee is one of the targets of the call. -/
def IsCall (program : Program) (edge : CallEdge Site MethodId) : Prop :=
  ∃ call found, program.getStmt edge.site = .ok (.invoke call) ∧ edge.kind = call.kind ∧
    program.targets call.kind call.target = .ok found ∧ edge.callee ∈ found

/-- `program.Leads caller callee`: a call of the first method has the second one as a target. -/
def Leads (program : Program) (caller callee : MethodId) : Prop :=
  ∃ edge, program.IsCall edge ∧ edge.site.method = caller ∧ edge.callee = callee

theorem isCall_iff_mayCall {edge : CallEdge Site MethodId} :
    program.IsCall edge ↔ program.MayCall edge.kind edge.site edge.callee := by
  constructor
  · rintro ⟨call, found, hstmt, hkind, hfound, hcallee⟩
    obtain ⟨found', hfound', -, hmem⟩ := exists_targets call.kind (call_of_getStmt hstmt).1
    cases hfound.symm.trans hfound'
    exact ⟨call, hstmt, hkind.symm, (hmem _).mp hcallee⟩
  · rintro ⟨call, hstmt, hkind, hruns⟩
    obtain ⟨found, hfound, -, hmem⟩ := exists_targets call.kind (call_of_getStmt hstmt).1
    exact ⟨call, found, hstmt, hkind.symm, hfound, (hmem _).mpr hruns⟩

theorem surveyed_iff_exists_leads : program.Surveyed method ↔
    ∃ entry ∈ program.entries, ReflTransGen program.Leads entry method := by
  constructor
  · intro hmethod
    induction hmethod with
    | entry hentry => exact ⟨_, hentry, .refl⟩
    | call _ hcall ih =>
      obtain ⟨entry, hentry, hreach⟩ := ih
      exact ⟨entry, hentry, hreach.tail ⟨⟨_, _, _⟩, isCall_iff_mayCall.mpr hcall, rfl, rfl⟩⟩
  · rintro ⟨entry, hentry, hreach⟩
    induction hreach with
    | refl => exact .entry hentry
    | tail _ hleads ih =>
      obtain ⟨edge, hcall, rfl, rfl⟩ := hleads
      exact .call ih (isCall_iff_mayCall.mp hcall)

end Program

namespace CallGraph

open Program (surveyed_iff_exists_leads isCall_iff_mayCall)

variable {program : Program} {graph other : CallGraph Site MethodId} {method : MethodId}

/-- A call graph starts with the entry methods, and has all calls of the methods that it
reaches. -/
structure Closed (program : Program) (graph : CallGraph Site MethodId) : Prop where
  entry : ∀ method ∈ program.entries,
    method ∈ graph.entries.toList ∧ method ∈ graph.reachable.toList
  call : ∀ edge, program.IsCall edge → edge.site.method ∈ graph.reachable.toList →
    edge ∈ graph.edges.toList ∧ edge.callee ∈ graph.reachable.toList

/-- Everything in one call graph is in another one. -/
structure Within (graph other : CallGraph Site MethodId) : Prop where
  entries : graph.entries.toList ⊆ other.entries.toList
  reachable : graph.reachable.toList ⊆ other.reachable.toList
  edges : graph.edges.toList ⊆ other.edges.toList

/-- A call graph lists the entry methods, the methods that calls lead to from there, and the
calls of these, each once. -/
structure Exact (program : Program) (graph : CallGraph Site MethodId) : Prop where
  nodup_entries : graph.entries.toList.Nodup
  entries : ∀ method, method ∈ graph.entries.toList ↔ method ∈ program.entries
  nodup_reachable : graph.reachable.toList.Nodup
  reachable : ∀ method, method ∈ graph.reachable.toList ↔
    ∃ entry ∈ program.entries, ReflTransGen program.Leads entry method
  nodup_edges : graph.edges.toList.Nodup
  edges : ∀ edge, edge ∈ graph.edges.toList ↔
    edge.site.method ∈ graph.reachable.toList ∧ program.IsCall edge

/-- What calls lead to from an entry method is in every closed call graph. -/
theorem Closed.mem_reachable (h : graph.Closed program) {entry : MethodId}
    (hentry : entry ∈ program.entries) (hreach : ReflTransGen program.Leads entry method) :
    method ∈ graph.reachable.toList := by
  induction hreach with
  | refl => exact (h.entry entry hentry).2
  | tail _ hleads ih =>
    obtain ⟨edge, hcall, rfl, rfl⟩ := hleads
    exact (h.call edge hcall ih).2

theorem Surveys.exact (h : graph.Surveys program) : graph.Exact program where
  nodup_entries := graph.entries.nodup_toList
  entries := h.entries
  nodup_reachable := graph.reachable.nodup_toList
  reachable method := (h.reachable method).trans surveyed_iff_exists_leads
  nodup_edges := graph.edges.nodup_toList
  edges edge := by rw [h.edges, h.reachable, isCall_iff_mayCall]

theorem Exact.closed (h : graph.Exact program) : graph.Closed program where
  entry method hentry :=
    ⟨(h.entries method).mpr hentry, (h.reachable method).mpr ⟨method, hentry, .refl⟩⟩
  call edge hcall hcaller := by
    obtain ⟨entry, hentry, hreach⟩ := (h.reachable edge.site.method).mp hcaller
    have hleads : program.Leads edge.site.method edge.callee := ⟨edge, hcall, rfl, rfl⟩
    exact ⟨(h.edges edge).mpr ⟨hcaller, hcall⟩,
      (h.reachable edge.callee).mpr ⟨entry, hentry, hreach.tail hleads⟩⟩

theorem Exact.within (h : graph.Exact program) (hclosed : other.Closed program) :
    graph.Within other := by
  have hreachable : graph.reachable.toList ⊆ other.reachable.toList := by
    intro method hmethod
    obtain ⟨entry, hentry, hreach⟩ := (h.reachable method).mp hmethod
    exact hclosed.mem_reachable hentry hreach
  refine ⟨?_, hreachable, ?_⟩
  · intro method hmethod
    exact (hclosed.entry method ((h.entries method).mp hmethod)).1
  · intro edge hedge
    obtain ⟨hcaller, hcall⟩ := (h.edges edge).mp hedge
    exact (hclosed.call edge hcall (hreachable hcaller)).1

/-- The survey of the hierarchy comes to its end by itself, and its call graph is the least one
that is closed.  It lists the entry methods, the methods that calls lead to from there, and for
each of their calls an edge to each target, all of them once. -/
theorem ofHierarchy_least (program : Program) :
    ∃ count survey,
      Ends (attempt (surveyMethod program)) (.ok (Survey.start program)) count (.ok survey) ∧
      ofHierarchy program = .ok survey.graph ∧
      survey.graph.Exact program ∧
      survey.graph.Closed program ∧
      ∀ other : CallGraph Site MethodId, other.Closed program → survey.graph.Within other := by
  obtain ⟨count, survey, hends, hgraph, hsurveys⟩ := exists_survey program
  have hexact := hsurveys.exact
  exact ⟨count, survey, hends, hgraph, hexact, hexact.closed, fun _ => hexact.within⟩

/-- A method that calls itself and another one, which calls it back.  It is an entry twice, and a
third method that is never called calls them too. -/
def loopListing : Listing where
  classes := #[{ id := ⟨0⟩, name := "Loop", superClass := none, interfaces := [],
                 isInterface := false, isAbstract := false, methods := [⟨0⟩, ⟨1⟩, ⟨2⟩] }]
  methods := #[
    { id := ⟨0⟩, name := "main", declaringClass := ⟨0⟩, subsignature := "main()", isStatic := true,
      isAbstract := false, this := none, params := [],
      stmts := #[
        .invoke { kind := .static, target := ⟨⟨0⟩, "main()"⟩, base := none, args := [],
                  result := none },
        .invoke { kind := .static, target := ⟨⟨0⟩, "next()"⟩, base := none, args := [],
                  result := none }] },
    { id := ⟨1⟩, name := "next", declaringClass := ⟨0⟩, subsignature := "next()", isStatic := true,
      isAbstract := false, this := none, params := [],
      stmts := #[.invoke { kind := .static, target := ⟨⟨0⟩, "main()"⟩, base := none, args := [],
                           result := none }] },
    { id := ⟨2⟩, name := "stray", declaringClass := ⟨0⟩, subsignature := "stray()",
      isStatic := true, isAbstract := false, this := none, params := [],
      stmts := #[.invoke { kind := .static, target := ⟨⟨0⟩, "next()"⟩, base := none, args := [],
                           result := none }] }]
  entries := [⟨0⟩, ⟨0⟩]

/-- The program of `loopListing`. -/
def loopProgram : Program where
  listing := loopListing
  sound := by decide
  index := Index.ofListing loopListing
  index_eq := rfl

/-- A closed call graph of `loopProgram`. -/
def loopGraph : CallGraph Site MethodId :=
  [⟨.static, ⟨⟨0⟩, 0⟩, ⟨0⟩⟩, ⟨.static, ⟨⟨0⟩, 1⟩, ⟨1⟩⟩, ⟨.static, ⟨⟨1⟩, 0⟩, ⟨0⟩⟩].foldl addEdge
    (((empty.addEntry ⟨0⟩).addReachable ⟨0⟩).addReachable ⟨1⟩)

theorem closed_loopGraph : loopGraph.Closed loopProgram := by
  have hcalls : ∀ item ∈ loopProgram.listing.sites, ∀ call ∈ item.2.call?,
      ∀ callee ∈ (loopProgram.targets call.kind call.target).toOption.getD [],
        item.1.method ∈ loopGraph.reachable.toList →
          ⟨call.kind, item.1, callee⟩ ∈ loopGraph.edges.toList ∧
            callee ∈ loopGraph.reachable.toList := by decide
  refine ⟨by decide, ?_⟩
  rintro ⟨kind, site, callee⟩ ⟨call, found, hstmt, rfl, hfound, hcallee⟩ hcaller
  have hsite := Program.mem_listing_sites_iff.mpr hstmt
  apply hcalls (site, .invoke call) hsite call rfl callee _ hcaller
  rw [hfound]
  exact hcallee

/-- The call graph of `loopProgram` is within `loopGraph`, so that it leaves out the method that
is never called. -/
theorem ofHierarchy_least_loop : loopGraph.Closed loopProgram ∧
    ∃ graph, ofHierarchy loopProgram = .ok graph ∧ graph.Within loopGraph ∧
      ⟨1⟩ ∈ graph.reachable.toList ∧ ⟨2⟩ ∉ graph.reachable.toList := by
  obtain ⟨_, survey, -, hgraph, hexact, hclosed, hleast⟩ := ofHierarchy_least loopProgram
  have hwithin := hleast loopGraph closed_loopGraph
  have hcall : loopProgram.IsCall ⟨.static, ⟨⟨0⟩, 1⟩, ⟨1⟩⟩ :=
    ⟨_, [⟨1⟩], rfl, rfl, by decide, List.mem_singleton.mpr rfl⟩
  have hentry := (hclosed.entry ⟨0⟩ (by decide)).2
  refine ⟨closed_loopGraph, survey.graph, hgraph, hwithin, (hclosed.call _ hcall hentry).2, ?_⟩
  intro hstray
  exact absurd (hwithin.reachable hstray) (by decide)

end CallGraph

end ObjectFlow
