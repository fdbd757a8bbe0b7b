import ObjectFlow.Proofs.PointsTo.LeastModel
import ObjectFlow.Proofs.PointsTo.Termination

/-!
# The call graph is connected

At every step of a run the callees of the call graph are reachable, and every reachable method
is an entry method or is called.  The caller of an edge is another matter.  A call on an object
is found through its receiver variable, wherever that is mentioned, so that the caller is
reachable only when no method mentions the variables of another one.

Within a step an edge may come before the tasks that make its ends reachable.  A method comes
when it is reachable or a task on the stack leads to it, and what a step keeps is that all that
is recorded or waits belongs to methods that come.
-/

namespace ObjectFlow.PointsTo

namespace State

variable {program : Program} {policy : Policy} {state old new : State} {task : Task}
  {stack tasks rest : List Task} {added : Judgement ContextId CsObjId → Prop}
  {offered : Pointer → CsObjId → Prop} {method : CsMethod}

/-- The method is reachable, or a task on the stack leads to it. -/
def Comes (state : State) (stack : List Task) (method : CsMethod) : Prop :=
  state.Holds (.reachable method.context method.method) ∨ Expected stack method

/-- Everything that is recorded, on its way or on the stack belongs to a method that comes. -/
structure Anchored (program : Program) (state : State) (stack : List Task) : Prop where
  tasks : ∀ task ∈ stack, ∀ method, task.Concerns program method → state.Comes stack method
  points : ∀ place object, state.Points place object →
    ∀ method, place.OwnedBy program method → state.Comes stack method
  flows : ∀ source target, state.Holds (.flows source target) →
    ∀ method, target.OwnedBy program method → state.Comes stack method
  calls : ∀ kind context site selected callee,
    state.Holds (.calls kind context site selected callee) →
      state.Comes stack ⟨context, site.method⟩

/-- Methods become reachable as entry methods or by calls, and calls are those of methods that
come when the program is local. -/
structure Connected (program : Program) (state : State) (stack : List Task) : Prop where
  founded : ∀ context method, state.Due stack (.reachable context method) →
    (context = Contexts.root ∧ method ∈ program.entries) ∨
      ∃ kind caller site, state.Holds (.calls kind caller site context method)
  anchored : program.Local → state.Anchored program stack

section Perform

variable (hinv : new.Invariant program policy (tasks ++ rest))
  (hperformed : Performed program policy old task new tasks added offered)
include hinv hperformed

/-- A method that comes before a task is performed comes after it. -/
theorem Comes.perform (h : old.Comes (task :: rest) method) :
    new.Comes (tasks ++ rest) method := by
  have heffect := hperformed.effect
  rcases h with hold | hreach | ⟨kind, site, hlink⟩
  · exact .inl (hperformed.change.extend.holds hold)
  · rcases List.mem_cons.mp hreach with rfl | hmem
    · exact .inl heffect
    · exact .inr (.inl (List.mem_append_right tasks hmem))
  · rcases List.mem_cons.mp hlink with rfl | hmem
    · -- The call is recorded now, and so its callee is due.
      have hcall : new.Holds (.calls kind site.context site.site method.context method.method) :=
        heffect
      exact (hinv.covered _ hcall).1.imp_right .inl
    · exact .inr (.inr ⟨kind, site, List.mem_append_right tasks hmem⟩)

/-- What a task records, offers or leaves to do belongs to the methods that it concerns or calls. -/
theorem Anchored.perform (hlocal : program.Local) (h : old.Anchored program (task :: rest)) :
    new.Anchored program (tasks ++ rest) := by
  have hkeep : ∀ method, old.Comes (task :: rest) method → new.Comes (tasks ++ rest) method :=
    fun _ => Comes.perform hinv hperformed
  have htask : ∀ method, task.Concerns program method → new.Comes (tasks ++ rest) method :=
    fun method hconcerns => hkeep method (h.tasks task List.mem_cons_self method hconcerns)
  have hnext : ∀ method, task.Concerns program method ∨ Expected tasks method →
      new.Comes (tasks ++ rest) method := by
    rintro method (hconcerns | hreach | ⟨kind, site, hlink⟩)
    · exact htask method hconcerns
    · exact .inr (.inl (List.mem_append_left rest hreach))
    · exact .inr (.inr ⟨kind, site, List.mem_append_left rest hlink⟩)
  constructor
  · intro other hother method hconcerns
    rcases List.mem_append.mp hother with hmem | hmem
    · exact hnext method (hperformed.traced.concerned hlocal other hmem method hconcerns)
    · exact hkeep method (h.tasks other (List.mem_cons_of_mem task hmem) method hconcerns)
  · rintro place object (hholds | hpending) method howned
    · rcases hperformed.change.holds _ hholds with hold | hadded
      · exact hkeep method (h.points place object (.inl hold) method howned)
      · exact absurd hadded (hperformed.points place object)
    · rcases hperformed.change.pending place object hpending with hold | hoffered
      · exact hkeep method (h.points place object (.inr hold) method howned)
      · exact hnext method (hperformed.traced.offers hlocal place object hoffered method howned)
  · intro source target hholds method howned
    rcases hperformed.change.holds _ hholds with hold | hadded
    · exact hkeep method (h.flows source target hold method howned)
    · obtain rfl := List.mem_singleton.mp (hperformed.recorded _ hadded)
      exact htask method howned
  · intro kind context site selected callee hholds
    rcases hperformed.change.holds _ hholds with hold | hadded
    · exact hkeep _ (h.calls kind context site selected callee hold)
    · obtain rfl := List.mem_singleton.mp (hperformed.recorded _ hadded)
      exact htask _ rfl

/-- Performing a task keeps the call graph connected. -/
theorem Connected.perform (h : old.Connected program (task :: rest)) :
    new.Connected program (tasks ++ rest) := by
  refine ⟨?_, fun hlocal => (h.anchored hlocal).perform hinv hperformed hlocal⟩
  intro context method hdue
  have hextend := hperformed.change.extend
  have hkeep : old.Due (task :: rest) (.reachable context method) →
      (context = Contexts.root ∧ method ∈ program.entries) ∨
        ∃ kind caller site, new.Holds (.calls kind caller site context method) := by
    intro hold
    refine (h.founded context method hold).imp_right ?_
    rintro ⟨kind, caller, site, hcall⟩
    exact ⟨kind, caller, site, hextend.holds hcall⟩
  rcases hdue with hholds | hreach
  · rcases hperformed.change.holds _ hholds with hold | hadded
    · exact hkeep (.inl hold)
    · obtain rfl := List.mem_singleton.mp (hperformed.recorded _ hadded)
      exact hkeep (.inr List.mem_cons_self)
  · rcases List.mem_append.mp hreach with hmem | hmem
    · -- Only a call puts a method on the stack, and it is recorded by then.
      obtain ⟨kind, site, rfl⟩ := hperformed.traced.reached _ hmem
      exact .inr ⟨kind, _, _, hperformed.effect⟩
    · exact hkeep (.inr (List.mem_cons_of_mem task hmem))

end Perform

section Taken

variable {id : PointerId} {objects fresh : PointsToSet} {worklist remaining : Worklist}
  {place : Pointer} {pointers : Pointers} {targets : List PointerId}

/-- Taking an entry of the worklist keeps the call graph connected. -/
theorem Connected.take (h : state.Connected program [])
    (htaken : Taken program state id objects fresh remaining place targets pointers worklist
      tasks) :
    Connected program { state with pointers, worklist } tasks := by
  have hkeep : ∀ method, state.Comes [] method →
      Comes { state with pointers, worklist } tasks method := by
    rintro method (hold | hreach | ⟨kind, site, hlink⟩)
    · exact .inl (htaken.extend.holds hold)
    · cases hreach
    · cases hlink
  have hplace : program.Local → ∀ o ∈ fresh.toList, ∀ method, place.OwnedBy program method →
      Comes { state with pointers, worklist } tasks method :=
    fun hlocal o ho method howned => hkeep method
      ((h.anchored hlocal).points place o (.inr (htaken.pending_of_fresh ho)) method howned)
  refine ⟨?_, fun hlocal => ⟨?_, ?_, ?_, ?_⟩⟩
  · rintro context method (hholds | hreach)
    · exact h.founded context method (.inl hholds)
    · obtain ⟨_, _, _, _, _, hopens⟩ := (htaken.tasks_iff _).mp hreach
      cases hopens
  · intro task htask method hconcerns
    obtain ⟨context, base, object, rfl, ho, hopens⟩ := (htaken.tasks_iff task).mp htask
    -- The statement goes through the variable, so its method mentions it.
    obtain ⟨site, stmt, route, hserves, hstmt, hroute⟩ := hopens.exists_serves
    obtain rfl : method = ⟨context, site.method⟩ := hserves.concerns hconcerns
    exact hplace hlocal object ho _ ⟨rfl, Program.mentions_of_getStmt hstmt
      (List.mem_append_left _ (Stmt.mem_uses_of_route? hroute))⟩
  · rintro other object (hholds | hpending) method howned
    · rcases htaken.holds hholds with hold | ⟨o, heq, ho⟩
      · exact hkeep method ((h.anchored hlocal).points other object (.inl hold) method howned)
      · cases heq
        exact hplace hlocal object ho method howned
    · rcases htaken.pending hpending with hold | ⟨hflow, -⟩
      · exact hkeep method ((h.anchored hlocal).points other object (.inr hold) method howned)
      · exact hkeep method ((h.anchored hlocal).flows place other hflow method howned)
  · intro source target hholds method howned
    rcases htaken.holds hholds with hold | ⟨o, heq, -⟩
    · exact hkeep method ((h.anchored hlocal).flows source target hold method howned)
    · cases heq
  · intro kind context site selected callee hholds
    exact hkeep _ ((h.anchored hlocal).calls kind context site selected callee hholds)

end Taken

/-- A run that knows nothing is connected, with entry methods on the stack or without. -/
theorem connected_start {calls : CallGraph CsSite CsMethod}
    (hreachable : calls.reachable = .empty) (hedges : calls.edges = .empty)
    {entries : List MethodId} (hentries : entries ⊆ program.entries) :
    Connected program { ({} : State) with calls }
      (entries.map fun entry => .reach ⟨Contexts.root, entry⟩) := by
  have hnone := not_holds_start hreachable hedges
  refine ⟨?_, fun _ => ⟨?_, ?_, fun s t hj => absurd hj (hnone _),
    fun _ _ _ _ _ hj => absurd hj (hnone _)⟩⟩
  · rintro context method (hholds | hreach)
    · exact absurd hholds (hnone _)
    · obtain ⟨entry, hentry, heq⟩ := List.mem_map.mp hreach
      cases heq
      exact .inl ⟨rfl, hentries hentry⟩
  · intro task htask method hconcerns
    obtain ⟨entry, -, rfl⟩ := List.mem_map.mp htask
    obtain rfl : method = ⟨Contexts.root, entry⟩ := hconcerns
    exact .inr (.inl htask)
  · rintro place object (hholds | hpending)
    · exact absurd hholds (hnone _)
    · exact absurd hpending (not_pending_start calls place object)

/-- How far a run is does not matter to the call graph. -/
theorem Connected.withPhase (h : state.Connected program stack) (phase : Phase)
    (processed : Nat) : Connected program { state with phase, processed } stack := by
  refine ⟨h.founded, fun hlocal => ?_⟩
  obtain ⟨htasks, hpoints, hflows, hcalls⟩ := h.anchored hlocal
  exact ⟨htasks, hpoints, hflows, hcalls⟩

end State

variable {program : Program} {policy : Policy} {state : State} {count : Nat}

/-- No part of a run loses the connection of the call graph. -/
theorem kept_connected (program : Program) (policy : Policy) :
    Kept program policy fun state stack => state.Connected program stack where
  started hreachable hedges _ hentries := State.connected_start hreachable hedges hentries
  performed hinv _ hperformed h := h.perform (hinv.perform hperformed) hperformed
  taken htaken h := h.take htaken
  phase phase processed h := h.withPhase phase processed

/-- The call graph is connected after any number of steps. -/
theorem After.connected (h : After program policy count state) : state.Connected program [] :=
  (kept_connected program policy).after h

/-- The call graph of every state of a run: callees are reachable, reachable methods are entry
methods under the empty context or callees, and when methods mention only their own variables
callers are reachable as well. -/
theorem callGraph_connected (h : State.Reaches program policy state) :
    (∀ edge ∈ state.calls.edges.toList, edge.callee ∈ state.calls.reachable.toList) ∧
      (∀ method ∈ state.calls.reachable.toList,
        (∃ entry ∈ program.entries, method = ⟨Contexts.root, entry⟩) ∨
          ∃ edge ∈ state.calls.edges.toList, edge.callee = method) ∧
      (program.Local → ∀ edge ∈ state.calls.edges.toList,
        ⟨edge.site.context, edge.site.site.method⟩ ∈ state.calls.reachable.toList) := by
  obtain ⟨count, hafter⟩ := h.exists_after
  have hconnected := hafter.connected
  have hedges : ∀ edge ∈ state.calls.edges.toList, state.Holds (.calls edge.kind
      edge.site.context edge.site.site edge.callee.context edge.callee.method) :=
    fun edge hedge => State.holds_calls_iff.mpr (Array.mem_toList_iff.mp hedge)
  refine ⟨?_, ?_, ?_⟩
  · intro edge hedge
    have hcallee := (h.covered (hedges edge hedge)).1
    exact Array.mem_toList_iff.mpr (State.holds_reachable_iff.mp hcallee.holds)
  · intro method hmethod
    have hreachable := State.holds_reachable_iff.mpr (Array.mem_toList_iff.mp hmethod)
    rcases hconnected.founded method.context method.method (.inl hreachable) with
      ⟨hroot, hentry⟩ | ⟨kind, caller, site, hcall⟩
    · exact .inl ⟨method.method, hentry, by rw [← hroot]⟩
    · exact .inr ⟨_, Array.mem_toList_iff.mpr (State.holds_calls_iff.mp hcall), rfl⟩
  · intro hlocal edge hedge
    rcases (hconnected.anchored hlocal).calls _ _ _ _ _ (hedges edge hedge) with
      hreachable | hreach | ⟨kind, site, hlink⟩
    · exact Array.mem_toList_iff.mpr (State.holds_reachable_iff.mp hreachable)
    · cases hreach
    · cases hlink

/-- At the end of the run on `boxProgram` the calls of its call graph start and end at methods
that are reachable. -/
theorem callGraph_connected_box : ∃ state, State.Reaches boxProgram ⟨.object 1, 0⟩ state ∧
    state.phase = .done ∧ boxProgram.Local ∧ ∀ edge ∈ state.calls.edges.toList,
      edge.callee ∈ state.calls.reachable.toList ∧
        ⟨edge.site.context, edge.site.site.method⟩ ∈ state.calls.reachable.toList := by
  obtain ⟨final, -, hreaches, hdone⟩ := State.exists_solve boxProgram ⟨.object 1, 0⟩
  have hlocal : boxProgram.Local := by decide
  obtain ⟨hcallees, -, hcallers⟩ := callGraph_connected hreaches
  exact ⟨final, hreaches, hdone, hlocal,
    fun edge hedge => ⟨hcallees edge hedge, hcallers hlocal edge hedge⟩⟩

/-- The method that a judgement makes reachable or calls. -/
def Judgement.method? : Judgement Trail Origin → Option MethodId
  | .reachable _ method => some method
  | .calls _ _ _ _ callee => some callee
  | _ => none

/-- The methods that the rules reach are entry methods, or some call resolves to them. -/
theorem Derives.resolved {j : Judgement Trail Origin} (h : Derives program policy j)
    {id : MethodId} (hid : j.method? = some id) :
    id ∈ program.entries ∨ ∃ site call receiver, program.getStmt site = .ok (.invoke call) ∧
      (∀ type, receiver = some type → ∃ alloc lhs, program.getStmt alloc = .ok (.alloc lhs type)) ∧
      program.callee receiver call.kind call.target = .ok (some id) := by
  induction h with
  | entry hentry =>
    cases hid
    exact .inl hentry
  | staticCall _ hstmt _ hcallee =>
    cases hid
    exact .inr ⟨_, _, none, hstmt, by simp, hcallee⟩
  | @receiverCall _ _ object _ _ _ _ _ hstmt _ hdispatch =>
    cases hid
    obtain ⟨lhs, type, halloc, hcallee⟩ := hdispatch.resolved
    refine .inr ⟨_, _, some type, hstmt, ?_, hcallee⟩
    intro found hfound
    cases hfound
    exact ⟨object.alloc, lhs, halloc⟩
  | callee _ ih => exact ih hid
  | _ => cases hid

/-- The call of the method `run` on the object of `main`. -/
def strayCall : Call :=
  { kind := .virtual, target := ⟨⟨0⟩, "run()"⟩, base := some ⟨0⟩, args := [], result := none }

/-- A method that is not called mentions the variable of another one, and calls a method on the
object there. -/
def strayListing : Listing where
  classes := #[{ id := ⟨0⟩, name := "Job", superClass := none, interfaces := [],
                 isInterface := false, isAbstract := false, methods := [⟨0⟩, ⟨1⟩, ⟨2⟩] }]
  methods := #[
    { id := ⟨0⟩, name := "main", declaringClass := ⟨0⟩, subsignature := "main()", isStatic := true,
      isAbstract := false, this := none, params := [], stmts := #[.alloc ⟨0⟩ (.object ⟨0⟩)] },
    { id := ⟨1⟩, name := "run", declaringClass := ⟨0⟩, subsignature := "run()",
      isStatic := false, isAbstract := false, this := some ⟨1⟩, params := [], stmts := #[] },
    { id := ⟨2⟩, name := "stray", declaringClass := ⟨0⟩, subsignature := "stray()",
      isStatic := true, isAbstract := false, this := none, params := [],
      stmts := #[.invoke strayCall] }]
  vars := #[⟨⟨0⟩, "job", .object ⟨0⟩, ⟨0⟩⟩, ⟨⟨1⟩, "this", .object ⟨0⟩, ⟨1⟩⟩]
  entries := [⟨0⟩]

/-- The program of `strayListing`. -/
def strayProgram : Program where
  listing := strayListing
  sound := by decide
  index := Index.ofListing strayListing
  index_eq := rfl

theorem strayProgram_callee :
    strayProgram.callee (some (.object ⟨0⟩)) strayCall.kind strayCall.target =
      .ok (some ⟨1⟩) := by
  decide

/-- No call of `strayProgram` runs the method `stray`. -/
theorem not_derives_reachable_stray {trail : Trail} :
    ¬ Derives strayProgram policy (.reachable trail ⟨2⟩) := by
  intro hderives
  rcases hderives.resolved rfl with hentry | ⟨site, call, receiver, hstmt, htype, hcallee⟩
  · revert hentry
    decide
  · obtain ⟨-, rfl⟩ : site = ⟨⟨2⟩, 0⟩ ∧ call = strayCall := by
      simpa [strayProgram, strayListing, Listing.sites, Method.sites] using
        Program.mem_listing_sites_iff.mpr hstmt
    cases receiver with
    | none =>
      have hnone : strayProgram.callee none strayCall.kind strayCall.target =
          .ok (some ⟨1⟩) := by decide
      rw [hnone] at hcallee
      cases hcallee
    | some type =>
      obtain ⟨alloc, lhs, halloc⟩ := htype type rfl
      obtain ⟨-, -, rfl⟩ : alloc = ⟨⟨0⟩, 0⟩ ∧ lhs = ⟨0⟩ ∧ type = .object ⟨0⟩ := by
        simpa [strayProgram, strayListing, Listing.sites, Method.sites] using
          Program.mem_listing_sites_iff.mpr halloc
      rw [strayProgram_callee] at hcallee
      cases hcallee

/-- Without the condition on variables a caller need not be reachable: the call in the method
`stray` is found, while the method is not. -/
theorem callGraph_not_connected_stray :
    Config.PointsTo.validate ⟨.insensitive, none⟩ = .ok () ∧
      ∃ state, State.Reaches strayProgram (.ofConfig ⟨.insensitive, none⟩) state ∧
        ∃ edge ∈ state.calls.edges.toList,
          ⟨edge.site.context, edge.site.site.method⟩ ∉ state.calls.reachable.toList := by
  obtain ⟨final, -, hreaches, hdone⟩ :=
    State.exists_solve strayProgram (.ofConfig ⟨.insensitive, none⟩)
  refine ⟨by decide, final, hreaches, ?_⟩
  have hobject : Derives strayProgram (.ofConfig ⟨.insensitive, none⟩)
      (.pointsTo (.var [] ⟨0⟩) ⟨[], ⟨⟨0⟩, 0⟩⟩) :=
    .alloc (.entry (by decide)) rfl
  have hcall : Derives strayProgram (.ofConfig ⟨.insensitive, none⟩)
      (.calls .virtual [] ⟨⟨2⟩, 0⟩ [] ⟨1⟩) :=
    .receiverCall hobject rfl rfl ⟨⟨⟨0⟩, .object ⟨0⟩, rfl, strayProgram_callee⟩, _, rfl, rfl⟩
  obtain ⟨context, selected, hholds, -⟩ :=
    ((hreaches.finished hdone).knows_of_derives hcall).calls
  refine ⟨_, Array.mem_toList_iff.mpr (State.holds_calls_iff.mp hholds), fun hcaller => ?_⟩
  have hreachable := State.holds_reachable_iff.mpr (Array.mem_toList_iff.mp hcaller)
  obtain ⟨trail, -, hderives⟩ := (hreaches.justified hreachable).reachable
  exact not_derives_reachable_stray hderives

end ObjectFlow.PointsTo
