import ObjectFlow.Proofs.CallGraph.Dispatch
import ObjectFlow.Proofs.CallGraph.Tables
import ObjectFlow.Proofs.Iteration
import ObjectFlow.Proofs.Program.Subtypes

/-!
# The call graph of the hierarchy

A call that is dispatched on its receiver may run what any class below the class that it names
runs.  The walk down the hierarchy finds these methods and no others, and the survey of the
program from its entry methods finds the methods that calls lead to in this way.  Both come to
their end without a fault.
-/

namespace ObjectFlow

open Iteration (Ends attempt remaining_lt_of_visit remaining_lt_rounds)

namespace Program

variable {program : Program} {root id : ClassId} {subsignature : String}

section Descent

variable {walk : Descent} {queue : List ClassId}

/-- What holds during a walk down from `root`. -/
structure Descent.Invariant (program : Program) (root : ClassId) (subsignature : String)
    (walk : Descent) : Prop where
  nodup : walk.visited.Nodup
  below : ∀ c, c ∈ walk.visited ∨ c ∈ walk.queue → program.Below root c
  root : root ∈ walk.visited ∨ root ∈ walk.queue
  closed : ∀ above ∈ walk.visited, ∀ c, program.Link above c →
    c ∈ walk.visited ∨ c ∈ walk.queue
  found_nodup : walk.found.Nodup
  found : ∀ method, method ∈ walk.found ↔
    ∃ c ∈ walk.visited, program.dispatch c subsignature = .ok (some method)

/-- What is left of a walk: visits of new classes, and visits that only empty the queue. -/
def Descent.remaining (program : Program) (walk : Descent) : Nat :=
  (program.listing.classes.size - walk.visited.length) * (program.listing.size + 1) +
    walk.queue.length

theorem Descent.invariant_start (program : Program) (root : ClassId) (subsignature : String) :
    Descent.Invariant program root subsignature { queue := [root] } where
  nodup := List.nodup_nil
  below c hc := by
    have hroot : c = root := by simpa using hc
    exact hroot ▸ Relation.ReflTransGen.refl
  root := .inr List.mem_cons_self
  closed := by simp
  found_nodup := List.nodup_nil
  found := by simp

/-- A class that was visited before is dropped. -/
theorem Descent.Invariant.skip (h : walk.Invariant program root subsignature)
    (hqueue : walk.queue = id :: queue) (hvisited : id ∈ walk.visited) :
    Descent.Invariant program root subsignature { walk with queue } := by
  have hdrop : ∀ {c}, c ∈ walk.visited ∨ c ∈ walk.queue → c ∈ walk.visited ∨ c ∈ queue := by
    intro c hc
    rw [hqueue, List.mem_cons] at hc
    rcases hc with hc | rfl | hc
    · exact .inl hc
    · exact .inl hvisited
    · exact .inr hc
  constructor
  · exact h.nodup
  · intro c hc
    apply h.below c
    rw [hqueue]
    exact hc.imp_right (List.mem_cons_of_mem id)
  · exact hdrop h.root
  · exact fun above habove c hlink => hdrop (h.closed above habove c hlink)
  · exact h.found_nodup
  · exact h.found

/-- The methods found so far, with what one more class runs. -/
def foundWith (found : List MethodId) : Option MethodId → List MethodId
  | some method => if found.contains method then found else found ++ [method]
  | none => found

theorem mem_foundWith {found : List MethodId} {target : Option MethodId} {method : MethodId} :
    method ∈ foundWith found target ↔ method ∈ found ∨ target = some method := by
  cases target with
  | none => simp [foundWith]
  | some new =>
    simp only [foundWith, List.contains_eq_mem, decide_eq_true_eq, Option.some.injEq]
    split
    · next hold =>
      constructor
      · exact .inl
      · rintro (hmem | rfl)
        · exact hmem
        · exact hold
    · simp [eq_comm]

theorem nodup_foundWith {found : List MethodId} (h : found.Nodup) (target : Option MethodId) :
    (foundWith found target).Nodup := by
  cases target with
  | none => exact h
  | some new =>
    simp only [foundWith, List.contains_eq_mem, decide_eq_true_eq]
    split
    · exact h
    · next hnew => exact h.append (List.nodup_singleton new) (by simpa using hnew)

/-- A new class is visited, and what stands right below it is queued. -/
theorem Descent.Invariant.visit (h : walk.Invariant program root subsignature)
    (hqueue : walk.queue = id :: queue) (hnew : id ∉ walk.visited) {c : Class}
    (hclass : program.getClass id = .ok c) {target : Option MethodId}
    (htarget : program.dispatch id subsignature = .ok target) :
    Descent.Invariant program root subsignature {
      queue := queue ++ program.directSubtypes c
      visited := id :: walk.visited
      found := foundWith walk.found target } := by
  have hmove : ∀ {other} (more : List ClassId), other ∈ walk.visited ∨ other ∈ walk.queue →
      other ∈ id :: walk.visited ∨ other ∈ queue ++ more := by
    intro other more hother
    rw [hqueue, List.mem_cons] at hother
    simp only [List.mem_cons, List.mem_append]
    tauto
  have hid := h.below id (.inr (hqueue ▸ List.mem_cons_self))
  constructor
  · exact List.nodup_cons.mpr ⟨hnew, h.nodup⟩
  · intro other hother
    simp only [List.mem_cons, List.mem_append] at hother
    rcases hother with (rfl | hother) | hother | hother
    · exact hid
    · exact h.below other (.inl hother)
    · exact h.below other (.inr (hqueue ▸ List.mem_cons_of_mem id hother))
    · exact hid.tail ((mem_directSubtypes_iff hclass).mp hother)
  · exact hmove _ h.root
  · intro above habove other hlink
    rcases List.mem_cons.mp habove with rfl | habove
    · exact .inr (List.mem_append_right _ ((mem_directSubtypes_iff hclass).mpr hlink))
    · exact hmove _ (h.closed above habove other hlink)
  · exact nodup_foundWith h.found_nodup target
  · intro method
    rw [mem_foundWith, h.found]
    simp [htarget, or_comm]

/-- A class is new to the walk only as often as there are classes. -/
theorem Descent.Invariant.length_visited_lt (h : walk.Invariant program root subsignature)
    (hroot : root.index < program.listing.classes.size) (hqueue : walk.queue = id :: queue)
    (hnew : id ∉ walk.visited) : walk.visited.length < program.listing.classes.size := by
  have hnodup : (id :: walk.visited).Nodup := List.nodup_cons.mpr ⟨hnew, h.nodup⟩
  apply length_le_of_index_lt hnodup
  intro c hc
  refine Below.index_lt (h.below c ?_) hroot
  rw [hqueue]
  rcases List.mem_cons.mp hc with rfl | hc
  · exact .inr List.mem_cons_self
  · exact .inl hc

/-- The walk never faults, and every step leaves less of it. -/
theorem advances_descend (hroot : root.index < program.listing.classes.size) :
    Iteration.Advances (program.descend subsignature)
      (Descent.Invariant program root subsignature)
      (fun walk => walk.Invariant program root subsignature ∧ walk.queue = [])
      (Descent.remaining program) := by
  intro walk h
  cases hqueue : walk.queue with
  | nil => exact .inl ⟨walk, by simp [descend, hqueue], h, hqueue⟩
  | cons id queue =>
    by_cases hvisited : id ∈ walk.visited
    · refine .inr ⟨_, by simp [descend, hqueue, hvisited], h.skip hqueue hvisited, ?_⟩
      simp [Descent.remaining, hqueue]
    · have hid := (h.below id (.inr (hqueue ▸ List.mem_cons_self))).index_lt hroot
      obtain ⟨c, hclass⟩ := exists_getClass hid
      obtain ⟨target, htarget, -⟩ := resolves_dispatch program hid subsignature
      have hlt := h.length_visited_lt hroot hqueue hvisited
      have hfan := program.length_directSubtypes_le c
      have hcontains : walk.visited.contains id = false := by simpa using hvisited
      refine .inr ⟨_, ?_, h.visit hqueue hvisited hclass htarget, ?_⟩
      · simp only [descend, hqueue, hcontains, Bool.false_eq_true, if_false, htarget, hclass,
          ok_bind, pure_eq_ok]
        cases target <;> rfl
      · simp only [Descent.remaining, hqueue, List.length_cons, List.length_append]
        exact remaining_lt_of_visit hlt hfan queue.length

/-- The walk down from `root` comes to its end by itself.  It visits the classes below `root` and
finds what they run, each method once. -/
theorem exists_descent (hroot : root.index < program.listing.classes.size)
    (subsignature : String) :
    ∃ count walk,
      Ends (attempt (program.descend subsignature)) (.ok { queue := [root] }) count (.ok walk) ∧
      program.overriders root subsignature = .ok walk.found ∧
      (∀ c, c ∈ walk.visited ↔ program.Below root c) ∧ walk.found.Nodup ∧
      ∀ method, method ∈ walk.found ↔
        ∃ c, program.Below root c ∧ program.dispatch c subsignature = .ok (some method) := by
  have hclasses := program.measured.classes
  have hbound : Descent.remaining program { queue := [root] } + 1 <
      2 ^ (2 * program.listing.size + 2) := by
    refine Nat.lt_of_lt_of_le (remaining_lt_rounds program.listing.classes.size _) ?_
    exact Nat.pow_le_pow_right (by omega) (by omega)
  obtain ⟨count, walk, hends, hwalk, hinv, hqueue⟩ := (advances_descend hroot).exists_ends
    (Descent.invariant_start program root subsignature) hbound
  have hdone : ∀ {c}, c ∈ walk.visited ∨ c ∈ walk.queue → c ∈ walk.visited := by
    simp [hqueue]
  -- The visited classes are closed under links, so that every class below is among them.
  have hvisited : ∀ c, c ∈ walk.visited ↔ program.Below root c := by
    refine fun c => ⟨fun hc => hinv.below c (.inl hc), fun hc => ?_⟩
    induction hc with
    | refl => exact hdone hinv.root
    | tail _ hlink ih => exact hdone (hinv.closed _ ih _ hlink)
  refine ⟨count, walk, hends, by simp [overriders, hwalk], hvisited, hinv.found_nodup,
    fun method => ?_⟩
  rw [hinv.found]
  exact exists_congr fun c => and_congr_left' (hvisited c)

theorem exists_overriders (hroot : root.index < program.listing.classes.size)
    (subsignature : String) :
    ∃ found, program.overriders root subsignature = .ok found ∧ found.Nodup ∧
      ∀ method, method ∈ found ↔
        ∃ c, program.Below root c ∧ program.dispatch c subsignature = .ok (some method) := by
  obtain ⟨_, walk, -, hwalk, -, hfound⟩ := exists_descent hroot subsignature
  exact ⟨walk.found, hwalk, hfound⟩

end Descent

section Targets

variable {kind : CallKind} {target : MethodRef} {site : Site} {callee method : MethodId}

/-- `program.MayRun kind target method`: a call may run a method, as far as the hierarchy
tells.  The receiver of a call that is dispatched on it may be of any class below the class
that the call names. -/
def MayRun (program : Program) (kind : CallKind) (target : MethodRef) (method : MethodId) :
    Prop :=
  match kind with
  | .static => program.declared? target.declaringClass target.subsignature = some method
  | .special => program.dispatch target.declaringClass target.subsignature = .ok (some method)
  | .virtual | .interface =>
    ∃ c, program.Below target.declaringClass c ∧
      program.dispatch c target.subsignature = .ok (some method)

theorem MayRun.index_lt (h : program.MayRun kind target method)
    (htarget : target.declaringClass.index < program.listing.classes.size) :
    method.index < program.listing.methods.size := by
  have hdispatched : ∀ {c : ClassId}, c.index < program.listing.classes.size →
      program.dispatch c target.subsignature = .ok (some method) →
        method.index < program.listing.methods.size := by
    intro c hc hmethod
    obtain ⟨found, hfound, hlt⟩ := resolves_dispatch program hc target.subsignature
    rw [hmethod] at hfound
    cases hfound
    exact hlt method rfl
  cases kind with
  | static =>
    obtain ⟨_, hmethod, -⟩ := getMethod_of_declared? h
    exact lt_of_getMethod hmethod
  | special => exact hdispatched htarget h
  | virtual =>
    obtain ⟨c, hbelow, hmethod⟩ := h
    exact hdispatched (hbelow.index_lt htarget) hmethod
  | interface =>
    obtain ⟨c, hbelow, hmethod⟩ := h
    exact hdispatched (hbelow.index_lt htarget) hmethod

/-- What a call runs on a receiver it may run as far as the hierarchy tells, when the class of
the receiver stands below the class that the call names. -/
theorem mayRun_of_callee {receiver : Option Ty}
    (hcallee : program.callee receiver kind target = .ok (some method))
    (hbelow : kind = .virtual ∨ kind = .interface →
      program.Below target.declaringClass (dispatchClass receiver target)) :
    program.MayRun kind target method := by
  cases kind with
  | static => exact Except.ok.inj hcallee
  | special => exact hcallee
  | virtual => exact ⟨_, hbelow (.inl rfl), hcallee⟩
  | interface => exact ⟨_, hbelow (.inr rfl), hcallee⟩

/-- The targets of a call are found, each once. -/
theorem exists_targets (kind : CallKind)
    (htarget : target.declaringClass.index < program.listing.classes.size) :
    ∃ found, program.targets kind target = .ok found ∧ found.Nodup ∧
      ∀ method, method ∈ found ↔ program.MayRun kind target method := by
  have hnodup : ∀ found : Option MethodId, found.toList.Nodup := by
    intro found
    cases found <;> simp
  cases kind with
  | static => exact ⟨_, rfl, hnodup _, fun method => by simp [MayRun]⟩
  | special =>
    obtain ⟨found, hfound, -⟩ := resolves_dispatch program htarget target.subsignature
    refine ⟨found.toList, by simp [targets, callee, hfound], hnodup _, fun method => ?_⟩
    simp [MayRun, hfound]
  | virtual => exact exists_overriders htarget target.subsignature
  | interface => exact exists_overriders htarget target.subsignature

/-- `program.MayCall kind site callee`: the call at a site is of a kind and may run a method,
as far as the hierarchy tells. -/
def MayCall (program : Program) (kind : CallKind) (site : Site) (callee : MethodId) : Prop :=
  ∃ call, program.getStmt site = .ok (.invoke call) ∧ call.kind = kind ∧
    program.MayRun call.kind call.target callee

theorem MayCall.index_lt (h : program.MayCall kind site callee) :
    callee.index < program.listing.methods.size := by
  obtain ⟨call, hstmt, -, hruns⟩ := h
  exact hruns.index_lt (call_of_getStmt hstmt).1

/-- The methods that calls lead to from the entry methods, as far as the hierarchy tells. -/
inductive Surveyed (program : Program) : MethodId → Prop where
  | entry {method : MethodId} (hentry : method ∈ program.entries) : Surveyed program method
  | call {kind : CallKind} {site : Site} {callee : MethodId}
    (hcaller : Surveyed program site.method) (hcall : program.MayCall kind site callee) :
    Surveyed program callee

theorem Surveyed.index_lt (h : program.Surveyed method) :
    method.index < program.listing.methods.size := by
  cases h with
  | entry hentry => exact program.inRange.entry method hentry
  | call _ hcall => exact hcall.index_lt

theorem mem_callSites_iff {id : MethodId} {body : Method}
    (hmethod : program.getMethod id = .ok body) {call : Call} :
    (site, call) ∈ body.callSites ↔
      site.method = id ∧ program.getStmt site = .ok (.invoke call) := by
  simp only [Method.callSites, List.mem_filterMap, Prod.exists, mem_sites_iff hmethod,
    Option.map_eq_some_iff, Prod.mk.injEq]
  constructor
  · rintro ⟨site', stmt, ⟨hid, hstmt⟩, call', hcall, rfl, rfl⟩
    cases stmt <;> cases hcall
    exact ⟨hid, hstmt⟩
  · rintro ⟨hid, hstmt⟩
    exact ⟨site, _, ⟨hid, hstmt⟩, call, rfl, rfl, rfl⟩

end Targets

end Program

namespace CallGraph

open Program (MayCall MayRun Surveyed)

variable {program : Program} {survey after : Survey}

section Calls

/-- What the targets of some calls add to a survey. -/
structure Survey.Notes (program : Program) (calls : List (Site × Call)) (before after : Survey) :
    Prop where
  entries : after.graph.entries = before.graph.entries
  reachable : after.graph.reachable = before.graph.reachable
  kept : ∀ edge ∈ before.graph.edges.items, edge ∈ after.graph.edges.items
  noted : ∀ item ∈ calls, ∀ callee, program.MayRun item.2.kind item.2.target callee →
    ∃ edge ∈ after.graph.edges.items, edge.site = item.1 ∧ edge.callee = callee
  fresh : ∀ edge ∈ after.graph.edges.items, edge ∈ before.graph.edges.items ∨
    ∃ item ∈ calls, edge.site = item.1 ∧ edge.kind = item.2.kind ∧
      program.MayRun item.2.kind item.2.target edge.callee
  queue : ∀ method, method ∈ after.queue ↔ method ∈ before.queue ∨
    ∃ item ∈ calls, program.MayRun item.2.kind item.2.target method
  length : after.queue.length ≤ before.queue.length + calls.length * program.listing.size

theorem exists_surveyCall (survey : Survey) {site : Site} {call : Call}
    (hstmt : program.getStmt site = .ok (.invoke call)) :
    ∃ after, surveyCall program survey site call = .ok after ∧
      Survey.Notes program [(site, call)] survey after := by
  obtain ⟨htarget, -⟩ := Program.call_of_getStmt hstmt
  obtain ⟨found, hfound, hnodup, hmem⟩ := Program.exists_targets call.kind htarget
  have hedges := edges_foldl_addEdge found survey.graph (CallEdge.mk call.kind site)
  refine ⟨_, by rw [surveyCall, hfound, ok_bind, pure_eq_ok], ?_⟩
  constructor
  · exact entries_foldl_addEdge found survey.graph _
  · exact reachable_foldl_addEdge found survey.graph _
  · intro edge hedge
    rw [hedges]
    exact (Interner.extends_foldl_insert _ found).mem hedge
  · intro item hitem callee hruns
    rw [hedges]
    obtain rfl := List.mem_singleton.mp hitem
    obtain ⟨edge, hedge, hcode⟩ : ∃ edge ∈ (found.foldl (fun table callee =>
        table.insert ⟨call.kind, site, callee⟩) survey.graph.edges).items,
        code edge = code (⟨call.kind, site, callee⟩ : CallEdge Site MethodId) :=
      (Interner.exists_code_foldl_insert_iff _ found).mpr
        (.inr ⟨callee, (hmem callee).mpr hruns, rfl⟩)
    have hends : (edge.site, edge.callee) = (site, callee) := LawfulKey.code_injective hcode
    cases hends
    exact ⟨edge, hedge, rfl, rfl⟩
  · intro edge hedge
    rw [hedges] at hedge
    rcases Interner.mem_foldl_insert_cases hedge with hold | ⟨callee, hcallee, rfl⟩
    · exact .inl hold
    · exact .inr ⟨_, List.mem_cons_self, rfl, rfl, (hmem callee).mp hcallee⟩
  · intro method
    simp [hmem]
  · have hlength : found.length ≤ program.listing.methods.size :=
      Program.length_le_of_index_lt hnodup fun method hmethod =>
        ((hmem method).mp hmethod).index_lt htarget
    have hmethods := program.measured.methods
    simp only [List.length_append, List.length_singleton, Nat.one_mul]
    omega

theorem Survey.Notes.trans {first second third : Survey} {calls more : List (Site × Call)}
    (h : Survey.Notes program calls first second) (h' : Survey.Notes program more second third) :
    Survey.Notes program (calls ++ more) first third := by
  constructor
  · rw [h'.entries, h.entries]
  · rw [h'.reachable, h.reachable]
  · exact fun edge hedge => h'.kept edge (h.kept edge hedge)
  · intro item hitem callee hruns
    rcases List.mem_append.mp hitem with hitem | hitem
    · obtain ⟨edge, hedge, hends⟩ := h.noted item hitem callee hruns
      exact ⟨edge, h'.kept edge hedge, hends⟩
    · exact h'.noted item hitem callee hruns
  · intro edge hedge
    rcases h'.fresh edge hedge with hedge | ⟨item, hitem, hnew⟩
    · rcases h.fresh edge hedge with hold | ⟨item, hitem, hnew⟩
      · exact .inl hold
      · exact .inr ⟨item, List.mem_append_left _ hitem, hnew⟩
    · exact .inr ⟨item, List.mem_append_right _ hitem, hnew⟩
  · intro method
    rw [h'.queue, h.queue]
    simp only [List.mem_append, or_and_right, exists_or, or_assoc]
  · have hfirst := h.length
    have hsecond := h'.length
    rw [List.length_append, Nat.add_mul]
    omega

theorem exists_surveyCalls (calls : List (Site × Call)) (survey : Survey)
    (hcalls : ∀ item ∈ calls, program.getStmt item.1 = .ok (.invoke item.2)) :
    ∃ after,
      calls.foldlM (fun survey (site, call) => surveyCall program survey site call) survey =
        .ok after ∧ Survey.Notes program calls survey after := by
  induction calls generalizing survey with
  | nil => exact ⟨survey, rfl, rfl, rfl, by simp, by simp, by simp, by simp, by simp⟩
  | cons item calls ih =>
    obtain ⟨site, call⟩ := item
    obtain ⟨hitem, hcalls⟩ := List.forall_mem_cons.mp hcalls
    obtain ⟨next, hnext, hnotes⟩ := exists_surveyCall survey hitem
    obtain ⟨after, hafter, hnotes'⟩ := ih next hcalls
    refine ⟨after, ?_, hnotes.trans hnotes'⟩
    rw [List.foldlM_cons]
    simp only [hnext, ok_bind, hafter]

end Calls

/-- What holds during a survey. -/
structure Survey.Invariant (program : Program) (survey : Survey) : Prop where
  entries : ∀ method, method ∈ survey.graph.entries.items ↔ method ∈ program.entries
  surveyed : ∀ method, method ∈ survey.graph.reachable.items ∨ method ∈ survey.queue →
    program.Surveyed method
  entry : ∀ method ∈ program.entries,
    method ∈ survey.graph.reachable.items ∨ method ∈ survey.queue
  justified : ∀ edge ∈ survey.graph.edges.items,
    edge.site.method ∈ survey.graph.reachable.items ∧
      program.MayCall edge.kind edge.site edge.callee
  complete : ∀ kind site callee, site.method ∈ survey.graph.reachable.items →
    program.MayCall kind site callee →
      (∃ edge ∈ survey.graph.edges.items, edge.site = site ∧ edge.callee = callee) ∧
        (callee ∈ survey.graph.reachable.items ∨ callee ∈ survey.queue)

/-- What is left of a survey: visits of new methods, and visits that only empty the queue. -/
def Survey.remaining (program : Program) (survey : Survey) : Nat :=
  (program.listing.methods.size - survey.graph.reachable.size) *
      (program.listing.size * program.listing.size + 1) + survey.queue.length

/-- The survey before its first step. -/
def Survey.start (program : Program) : Survey where
  graph := program.entries.foldl addEntry .empty
  queue := program.entries

theorem Survey.invariant_start (program : Program) : (Survey.start program).Invariant program := by
  unfold Survey.start
  rw [foldl_addEntry]
  constructor
  · intro method
    rw [Interner.mem_iff_exists_code, Interner.exists_code_foldl_insert_iff]
    simp
  · intro method hmethod
    exact .entry (by simpa using hmethod)
  · exact fun method hentry => .inr hentry
  · simp
  · simp

section Visit

variable {id : MethodId} {queue : List MethodId}

/-- A method that was surveyed before is dropped. -/
theorem Survey.Invariant.skip (h : survey.Invariant program) (hqueue : survey.queue = id :: queue)
    (hreachable : id ∈ survey.graph.reachable.items) :
    Survey.Invariant program { survey with queue } := by
  have hdrop : ∀ {method}, method ∈ survey.graph.reachable.items ∨ method ∈ survey.queue →
      method ∈ survey.graph.reachable.items ∨ method ∈ queue := by
    intro method hmethod
    rw [hqueue, List.mem_cons] at hmethod
    rcases hmethod with hmethod | rfl | hmethod
    · exact .inl hmethod
    · exact .inl hreachable
    · exact .inr hmethod
  constructor
  · exact h.entries
  · intro method hmethod
    apply h.surveyed method
    rw [hqueue]
    exact hmethod.imp_right (List.mem_cons_of_mem id)
  · exact fun method hentry => hdrop (h.entry method hentry)
  · exact h.justified
  · intro kind site callee hsite hcall
    obtain ⟨hedge, hcallee⟩ := h.complete kind site callee hsite hcall
    exact ⟨hedge, hdrop hcallee⟩

/-- A new method is reachable, and the targets of its calls are noted. -/
theorem Survey.Invariant.visit (h : survey.Invariant program)
    (hqueue : survey.queue = id :: queue) {body : Method}
    (hmethod : program.getMethod id = .ok body)
    (hnotes : Survey.Notes program body.callSites
      { graph := survey.graph.addReachable id, queue } after) : after.Invariant program := by
  have hreachable : ∀ method, method ∈ after.graph.reachable.items ↔
      method ∈ survey.graph.reachable.items ∨ method = id := by
    intro method
    rw [hnotes.reachable]
    exact Interner.mem_insert_iff
  have hmove : ∀ {method}, method ∈ survey.graph.reachable.items ∨ method ∈ survey.queue →
      method ∈ after.graph.reachable.items ∨ method ∈ after.queue := by
    intro method hmethod
    rw [hreachable, hnotes.queue]
    rw [hqueue, List.mem_cons] at hmethod
    tauto
  have hid := h.surveyed id (.inr (hqueue ▸ List.mem_cons_self))
  have hcalls : ∀ item ∈ body.callSites, ∀ callee,
      program.MayRun item.2.kind item.2.target callee →
        item.1.method = id ∧ program.MayCall item.2.kind item.1 callee := by
    intro item hitem callee hruns
    obtain ⟨hsite, hstmt⟩ := (Program.mem_callSites_iff hmethod).mp hitem
    exact ⟨hsite, item.2, hstmt, rfl, hruns⟩
  constructor
  · intro method
    rw [hnotes.entries]
    exact h.entries method
  · intro method hmethod
    rw [hreachable, hnotes.queue] at hmethod
    rcases hmethod with (hold | rfl) | hold | ⟨item, hitem, hruns⟩
    · exact h.surveyed method (.inl hold)
    · exact hid
    · exact h.surveyed method (.inr (hqueue ▸ List.mem_cons_of_mem id hold))
    · obtain ⟨hsite, hcall⟩ := hcalls item hitem method hruns
      exact .call (hsite ▸ hid) hcall
  · exact fun method hentry => hmove (h.entry method hentry)
  · intro edge hedge
    rw [hreachable]
    rcases hnotes.fresh edge hedge with hold | ⟨item, hitem, hsite, hkind, hruns⟩
    · obtain ⟨hcaller, hcall⟩ := h.justified edge hold
      exact ⟨.inl hcaller, hcall⟩
    · obtain ⟨hid', hcall⟩ := hcalls item hitem _ hruns
      rw [hsite, hkind]
      exact ⟨.inr hid', hcall⟩
  · intro kind site callee hsite hcall
    rcases (hreachable site.method).mp hsite with hold | hnew
    · obtain ⟨⟨edge, hedge, hends⟩, hcallee⟩ := h.complete kind site callee hold hcall
      exact ⟨⟨edge, hnotes.kept edge hedge, hends⟩, hmove hcallee⟩
    · obtain ⟨call, hstmt, -, hruns⟩ := hcall
      have hitem := (Program.mem_callSites_iff hmethod).mpr ⟨hnew, hstmt⟩
      exact ⟨hnotes.noted _ hitem callee hruns,
        .inr ((hnotes.queue callee).mpr (.inr ⟨_, hitem, hruns⟩))⟩

/-- A method is new to the survey only as often as there are methods. -/
theorem Survey.Invariant.size_reachable_lt (h : survey.Invariant program)
    (hqueue : survey.queue = id :: queue) (hnew : id ∉ survey.graph.reachable.items) :
    survey.graph.reachable.size < program.listing.methods.size := by
  have hnodup : (id :: survey.graph.reachable.toList).Nodup :=
    List.nodup_cons.mpr ⟨by simpa [Interner.toList] using hnew, Interner.nodup_toList _⟩
  have hlength : (id :: survey.graph.reachable.toList).length ≤
      program.listing.methods.size := by
    apply Program.length_le_of_index_lt hnodup
    intro method hmethod
    apply Surveyed.index_lt (h.surveyed method _)
    rw [hqueue]
    rcases List.mem_cons.mp hmethod with rfl | hmethod
    · exact .inr List.mem_cons_self
    · exact .inl (by simpa [Interner.toList] using hmethod)
  have hsize : survey.graph.reachable.toList.length = survey.graph.reachable.size := by
    simp [Interner.toList, Interner.size]
  rw [List.length_cons, hsize] at hlength
  exact hlength

/-- The survey never faults, and every step leaves less of it. -/
theorem advances_surveyMethod (program : Program) :
    Iteration.Advances (surveyMethod program) (Survey.Invariant program)
      (fun survey => survey.Invariant program ∧ survey.queue = [])
      (Survey.remaining program) := by
  intro survey h
  cases hqueue : survey.queue with
  | nil => exact .inl ⟨survey, by simp [surveyMethod, hqueue], h, hqueue⟩
  | cons id queue =>
    by_cases hreachable : id ∈ survey.graph.reachable.items
    · have hcontains : survey.graph.contains id = true := Interner.contains_iff.mpr hreachable
      refine .inr ⟨_, by simp [surveyMethod, hqueue, noteReachable, hcontains],
        h.skip hqueue hreachable, ?_⟩
      simp [Survey.remaining, hqueue]
    · have hcontains : survey.graph.contains id = false := by
        rw [← Bool.not_eq_true]
        exact fun hmem => hreachable (Interner.contains_iff.mp hmem)
      have hid := h.surveyed id (.inr (hqueue ▸ List.mem_cons_self))
      obtain ⟨body, hmethod⟩ := Program.exists_getMethod hid.index_lt
      obtain ⟨after, hafter, hnotes⟩ := exists_surveyCalls body.callSites
        { graph := survey.graph.addReachable id, queue }
        fun item hitem => ((Program.mem_callSites_iff hmethod).mp hitem).2
      refine .inr ⟨after, ?_, h.visit hqueue hmethod hnotes, ?_⟩
      · simp only [surveyMethod, hqueue, noteReachable, hcontains, Bool.false_eq_true, if_false,
          hmethod, ok_bind]
        simp only [hafter, ok_bind, pure_eq_ok]
      · have hlt := h.size_reachable_lt hqueue hreachable
        have hsize : after.graph.reachable.size = survey.graph.reachable.size + 1 := by
          have hcontains' : survey.graph.reachable.contains id = false := hcontains
          rw [hnotes.reachable, addReachable, Interner.size_insert, hcontains']
          rfl
        have hcalls : body.callSites.length ≤ program.listing.size :=
          (List.length_filterMap_le _ _).trans (Program.length_sites_le hmethod)
        have hfan : body.callSites.length * program.listing.size ≤
            program.listing.size * program.listing.size := Nat.mul_le_mul_right _ hcalls
        have hlength : after.queue.length ≤
            queue.length + body.callSites.length * program.listing.size := hnotes.length
        have hless := remaining_lt_of_visit hlt hfan queue.length
        simp only [Survey.remaining, hqueue, hsize, List.length_cons]
        omega

end Visit

/-- A call graph that lists the methods that calls lead to from the entry methods, and the
calls between them, as far as the hierarchy tells. -/
structure Surveys (program : Program) (graph : CallGraph Site MethodId) : Prop where
  entries : ∀ method, method ∈ graph.entries.toList ↔ method ∈ program.entries
  reachable : ∀ method, method ∈ graph.reachable.toList ↔ program.Surveyed method
  edges : ∀ edge, edge ∈ graph.edges.toList ↔
    program.Surveyed edge.site.method ∧ program.MayCall edge.kind edge.site edge.callee

theorem remaining_start_lt (program : Program) :
    (Survey.start program).remaining program + 1 < 2 ^ (4 * program.listing.size + 4) := by
  have hmethods := program.measured.methods
  have hentries : (Survey.start program).queue.length ≤ program.listing.size :=
    program.measured.entries
  unfold Survey.remaining
  generalize program.listing.size = size at *
  have hwide : size + 1 ≤ 2 ^ size := Nat.lt_two_pow_self
  generalize hwidth : 2 ^ size = width at hwide
  have hpos : 1 ≤ width := by omega
  have hcube : width ≤ width ^ 3 := Nat.le_self_pow (by omega) width
  calc (program.listing.methods.size - (Survey.start program).graph.reachable.size) *
          (size * size + 1) + (Survey.start program).queue.length + 1
      ≤ width * (width * width + 1) + width + 1 := by gcongr <;> omega
    _ = width ^ 3 + 2 * width + 1 := by ring
    _ < 16 * width ^ 3 := by omega
    _ ≤ 16 * width ^ 4 := Nat.mul_le_mul_left _ (Nat.pow_le_pow_right hpos (by omega))
    _ = 2 ^ (4 * size + 4) := by
      rw [← hwidth]
      ring

/-- The survey of a program from its entry methods comes to its end by itself. -/
theorem exists_survey (program : Program) :
    ∃ count survey,
      Ends (attempt (surveyMethod program)) (.ok (Survey.start program)) count (.ok survey) ∧
      ofHierarchy program = .ok survey.graph ∧ survey.graph.Surveys program := by
  obtain ⟨count, survey, hends, hsurvey, hinv, hqueue⟩ :=
    (advances_surveyMethod program).exists_ends (Survey.invariant_start program)
      (remaining_start_lt program)
  have hdone : ∀ {method}, method ∈ survey.graph.reachable.items ∨ method ∈ survey.queue →
      method ∈ survey.graph.reachable.items := by
    simp [hqueue]
  have hreachable : ∀ method, method ∈ survey.graph.reachable.items ↔
      program.Surveyed method := by
    refine fun method => ⟨fun hmethod => hinv.surveyed method (.inl hmethod), fun hmethod => ?_⟩
    induction hmethod with
    | entry hentry => exact hdone (hinv.entry _ hentry)
    | call _ hcall ih => exact hdone (hinv.complete _ _ _ ih hcall).2
  have hrun : ofHierarchy program = .ok survey.graph := by
    rw [ofHierarchy]
    exact (congrArg (· >>= _) hsurvey).trans rfl
  refine ⟨count, survey, hends, hrun, ?_, ?_, ?_⟩
  · simpa [Interner.toList] using hinv.entries
  · simpa [Interner.toList] using hreachable
  · intro edge
    rw [Interner.toList, Array.mem_toList_iff, ← hreachable]
    refine ⟨hinv.justified edge, ?_⟩
    rintro ⟨hsite, hcall⟩
    obtain ⟨⟨found, hfound, hsame, hcallee⟩, -⟩ := hinv.complete _ _ _ hsite hcall
    -- The statement at the site decides of which kind the call is.
    obtain ⟨call, hstmt, hkind, -⟩ := hcall
    obtain ⟨-, call', hstmt', hkind', -⟩ := hinv.justified found hfound
    rw [hsame, hstmt] at hstmt'
    cases hstmt'
    have hedge : found = edge := by
      cases found
      cases edge
      simp_all
    exact hedge ▸ hfound

theorem exists_ofHierarchy (program : Program) :
    ∃ graph, ofHierarchy program = .ok graph ∧ graph.Surveys program := by
  obtain ⟨_, survey, -, hgraph, hsurveys⟩ := exists_survey program
  exact ⟨survey.graph, hgraph, hsurveys⟩

end CallGraph

end ObjectFlow
