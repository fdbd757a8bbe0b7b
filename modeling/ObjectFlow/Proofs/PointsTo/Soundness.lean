import ObjectFlow.Proofs.Execution.Simulation
import ObjectFlow.Proofs.PointsTo.Answers

/-!
# The analysis is sound for runs

A run does what the rules allow, and a finished analysis records what the rules allow.
So a method that runs is reachable in the result, a call that a frame waits for is one of
the calls of its site, and a variable that holds an object points to the abstract object
of its allocation.
-/

namespace ObjectFlow.PointsTo

open Execution (Frame Machine Object Ref Runs Stacked Step Tracks)

/-- The abstract object of an object is among those of a variable. -/
def Result.MayPointTo (result : Result) (v : VarId) (object : Object) : Prop :=
  ∃ objects obj, result.pointsTo v = .ok objects ∧ obj ∈ objects ∧
    result.state.heap.get obj = .ok ⟨object.alloc, object.type⟩

/-- Variables point to the objects that they hold. -/
def Result.CoversVars (result : Result) (objects : List Object) (vars : Execution.Env Ref) : Prop :=
  ∀ v r, vars v = some r → ∃ object, objects[r]? = some object ∧ result.MayPointTo v object

/-- Two variables that may point to one object have an abstract object in common. -/
theorem Result.MayPointTo.exists_common {result : Result} {v w : VarId} {object : Object}
    (hv : result.MayPointTo v object) (hw : result.MayPointTo w object) :
    ∃ objects objects' obj, result.pointsTo v = .ok objects ∧ result.pointsTo w = .ok objects' ∧
      obj ∈ objects ∧ obj ∈ objects' := by
  obtain ⟨objects, obj, hobjects, hmem, hget⟩ := hv
  obtain ⟨objects', obj', hobjects', hmem', hget'⟩ := hw
  obtain rfl : obj = obj' := Handle.ext (Heap.eq_of_alloc_eq (Handle.lookup_eq_ok_iff.mp hget)
    (Handle.lookup_eq_ok_iff.mp hget') rfl)
  exact ⟨objects, objects', obj, hobjects, hobjects', hmem, hmem'⟩

/-- The result of an analysis of a program that came to its end. -/
structure Result.Complete (program : Program) (policy : Policy) (result : Result) : Prop where
  reaches : State.Reaches program policy result.state
  done : result.state.phase = .done
  entries : result.entries = program.entries

/-- Every result of the analysis came to its end, whatever the settings are. -/
theorem complete_of_analyze {program : Program} {config : Config.PointsTo} {result : Result}
    (h : analyze program config = .ok result) : result.Complete program (.ofConfig config) := by
  obtain ⟨final, hsolve, hreaches, hdone⟩ := State.exists_solve program (.ofConfig config)
  simp only [analyze, hsolve, ok_bind, pure_eq_ok, Except.ok.injEq] at h
  subst h
  exact ⟨hreaches, hdone, rfl⟩

/-- With settings that pass their check, the analysis comes to its end. -/
theorem exists_run (program : Program) {config : Config.PointsTo}
    (hvalid : config.validate = .ok ()) :
    ∃ result, run program config = .ok result ∧ result.Complete program (.ofConfig config) := by
  obtain ⟨final, hsolve, hreaches, hdone⟩ := State.exists_solve program (.ofConfig config)
  refine ⟨⟨final, program.entries⟩, ?_, hreaches, hdone, rfl⟩
  simp [run, hvalid, analyze, hsolve, Except.mapError]

namespace Result.Complete

variable {program : Program} {policy : Policy} {result : Result}

theorem knows (h : result.Complete program policy) {named : Judgement Trail Origin}
    (hderives : Derives program policy named) : result.state.Knows named :=
  (h.reaches.finished h.done).knows_of_derives hderives

theorem mem_reachableMethods (h : result.Complete program policy) {trail : Trail}
    {method : MethodId} (hderives : Derives program policy (.reachable trail method)) :
    method ∈ result.reachableMethods := by
  obtain ⟨context, hholds, -⟩ := (h.knows hderives).reachable
  exact mem_reachableMethods_iff.mpr ⟨context, hholds⟩

theorem mem_calleesOf (h : result.Complete program policy) {kind : CallKind} {trail trail' : Trail}
    {site : Site} {callee : MethodId}
    (hderives : Derives program policy (.calls kind trail site trail' callee)) :
    callee ∈ result.calleesOf site := by
  obtain ⟨context, selected, hholds, -⟩ := (h.knows hderives).calls
  exact mem_calleesOf_iff.mpr ⟨kind, context, selected, hholds⟩

theorem mayPointTo (h : result.Complete program policy) {trail : Trail} {v : VarId}
    {origin : Origin} {object : Object}
    (hderives : Derives program policy (.pointsTo (.var trail v) origin))
    (hcreated : Execution.Created program object origin) : result.MayPointTo v object := by
  obtain ⟨context, id, hholds, -, csObject, obj, hcsObject, -, hobj, halloc⟩ :=
    (h.knows hderives).pointsTo
  obtain ⟨objects, hobjects, hmem⟩ := exists_pointsTo h.reaches v
  refine ⟨objects, csObject.object, hobjects,
    (hmem _).mpr ⟨context, id, csObject, hholds, hcsObject, rfl⟩, ?_⟩
  -- The type of the abstract object is the one that its allocation names.
  obtain ⟨stack, hinv⟩ := h.reaches.exists_invariant
  obtain ⟨lhs, hstmt⟩ := hinv.orderly.objects obj (Array.mem_iff_getElem?.mpr ⟨_, hobj⟩)
  obtain ⟨lhs', hstmt'⟩ := hcreated.stmt
  have halloc' : obj.alloc = object.alloc := halloc.trans hcreated.alloc
  rw [halloc', hstmt'] at hstmt
  injection hstmt with hstmt
  injection hstmt with _ htype
  rw [Heap.get, Handle.lookup_eq_ok_iff, hobj, ← halloc', htype]

variable {origins : List Origin} {trail : Trail}

/-- The variables of a frame under a context point to what they hold. -/
theorem coversVars (h : result.Complete program policy) {machine : Machine} {trail' : Trail}
    (htracks : Tracks program policy origins trail machine) {frame : Frame}
    (hplaced : Execution.Placed program policy origins trail' frame) :
    result.CoversVars machine.objects frame.vars := by
  intro v r hr
  obtain ⟨origin, horigin, hpoints⟩ := hplaced.vars v r hr
  obtain ⟨object, hobject, hcreated⟩ := htracks.exists_object horigin
  exact ⟨object, hobject, h.mayPointTo hpoints hcreated⟩

end Result.Complete

/-- With settings that pass their check, the analysis gives a result that covers every run.
The method of every live frame is reachable, every frame below another one waits at a call
of the method above it, and every variable points to the objects that it holds. -/
theorem sound_for_runs (program : Program) (config : Config.PointsTo)
    (hvalid : config.validate = .ok ()) : ∃ result, run program config = .ok result ∧
      ∀ machine, Runs program machine →
        (∀ frame ∈ machine.frame :: machine.callers, frame.method ∈ result.reachableMethods ∧
          ∀ v r, frame.vars v = some r →
            ∃ object, machine.objects[r]? = some object ∧ result.MayPointTo v object) ∧
        (machine.frame :: machine.callers).IsChain fun callee caller =>
          ∃ index, caller.point = .stmt index ∧
            callee.method ∈ result.calleesOf ⟨caller.method, index⟩ := by
  obtain ⟨result, hrun, hcomplete⟩ := exists_run program hvalid
  refine ⟨result, hrun, fun machine hruns => ?_⟩
  obtain ⟨origins, trail, htracks⟩ := hruns.tracks (.ofConfig config)
  refine ⟨fun frame hframe => ?_, ?_⟩
  · obtain ⟨trail', hplaced⟩ := htracks.exists_placed hframe
    exact ⟨hcomplete.mem_reachableMethods hplaced.reachable,
      hcomplete.coversVars htracks hplaced⟩
  · refine (htracks.callers.isChain).imp fun callee caller hcalls => ?_
    obtain ⟨index, kind, calling, called, hpoint, hderives⟩ := hcalls
    exact ⟨index, hpoint, hcomplete.mem_calleesOf hderives⟩

/-- A machine of `boxProgram` right after its call: the result holds the object. -/
theorem exists_runs_box : ∃ machine, Runs boxProgram machine ∧ machine.frame.vars ⟨1⟩ = some 0 ∧
    machine.objects[0]? = some ⟨⟨⟨0⟩, 0⟩, .object ⟨0⟩⟩ := by
  have hsize : boxListing.methods.size = 2 := by decide
  have hmain : boxProgram.getMethod ⟨0⟩ = .ok boxListing.methods[0] := rfl
  have hsame : boxProgram.getMethod ⟨1⟩ = .ok boxListing.methods[1] := rfl
  have hstart : Runs boxProgram (.initial ⟨0⟩) := .start (by decide)
  have hentered := hstart.step 0 (.enter hmain rfl)
  have hcreated := hentered.step 0 (.execute ⟨hmain, rfl, rfl⟩ rfl rfl)
  have hcounted := hcreated.step 0 (.execute ⟨hmain, rfl, rfl⟩ rfl rfl)
  have hcallee : boxProgram.callee (some (.object ⟨0⟩)) .virtual ⟨⟨0⟩, "same(Box)"⟩ =
    .ok (some ⟨1⟩) := by decide
  have hcalled := hcounted.step 0
    (.receiverCall ⟨hmain, rfl, rfl⟩ (by decide) rfl rfl rfl hcallee hsame)
  have hinside := hcalled.step 0 (.enter hsame rfl)
  have hreturned := hinside.step 0 (.execute ⟨hsame, rfl, rfl⟩ rfl rfl)
  have hback := hreturned.step 0 (.back rfl rfl ⟨hmain, rfl, rfl⟩)
  exact ⟨_, hback, rfl, rfl⟩

/-- The result on `boxProgram` knows that the call may give back the object that `main`
creates. -/
theorem sound_for_runs_box : Config.PointsTo.standard.validate = .ok () ∧
    ∃ result machine, run boxProgram .standard = .ok result ∧ Runs boxProgram machine ∧
      machine.frame.vars ⟨1⟩ = some 0 ∧
      result.MayPointTo ⟨1⟩ ⟨⟨⟨0⟩, 0⟩, .object ⟨0⟩⟩ := by
  have hvalid : Config.PointsTo.standard.validate = .ok () := by decide
  obtain ⟨machine, hruns, hholds, hobject⟩ := exists_runs_box
  obtain ⟨result, hrun, hsound⟩ := sound_for_runs boxProgram .standard hvalid
  obtain ⟨-, hpoints⟩ := (hsound machine hruns).1 machine.frame List.mem_cons_self
  obtain ⟨object, hobject', hmay⟩ := hpoints ⟨1⟩ 0 hholds
  rw [hobject] at hobject'
  cases hobject'
  exact ⟨hvalid, result, machine, hrun, hruns, hholds, hmay⟩

end ObjectFlow.PointsTo
