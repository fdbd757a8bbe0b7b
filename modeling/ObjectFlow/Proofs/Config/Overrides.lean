import ObjectFlow.Config.Document
import ObjectFlow.Proofs.Outcome

/-!
# Settings in place of those of a preset

A configuration starts from a preset and may replace some settings of the points-to analysis,
in a program by `Analysis.adjustPointsTo` or in a document under `overrides`.  The two ways
differ in what they make of a setting that is left out: a program keeps that of the preset,
and a document takes the standard one, whatever its preset.
-/

namespace ObjectFlow.Config

/-- Settings of the points-to analysis, some of which may be left out. -/
structure Override where
  context : Option Strategy := none
  heapDepth : Option (Option Nat) := none
  deriving DecidableEq, Repr

namespace Override

/-- The settings of `base` with the given ones in their place. -/
def applyTo (change : Override) (base : PointsTo) : PointsTo where
  context := change.context.getD base.context
  heapDepth := change.heapDepth.getD base.heapDepth

/-- A field that may be left out. -/
def given? {α : Type} (read : Yaml → Option α) : Option Yaml → Option (Option α)
  | none => some none
  | some value => (read value).map some

/-- Reads the settings that are there. -/
def ofYaml? (yaml : Yaml) : Option Override := do
  let fields ← yaml.record? ["context", "heap_context_depth"]
  return {
    context := ← given? Strategy.ofYaml? (fields.lookup "context")
    heapDepth := ← given? (fun depth => Yaml.optionalField Yaml.word64? (some depth))
      (fields.lookup "heap_context_depth") }

/-- The preset of a document and the settings that it gives for the points-to analysis; there
are none when it says nothing about that analysis. -/
def ofDocument? (document : Yaml) : Option (Preset × Override) := do
  let _ ← (Analysis.versionOf document).toOption
  let fields ← document.record? ["version", "preset", "overrides"]
  let name ← (← fields.lookup "preset").text?
  let preset ← (Preset.ofName name).toOption
  let stages ← (← fields.lookup "overrides").record? ["pta", "dataflow"]
  let _ ← Yaml.optionalField Dataflow.ofYaml? (stages.lookup "dataflow")
  match stages.lookup "pta" with
  | none | some .null => none
  | some settings => return (preset, ← ofYaml? settings)

/-- What a text makes of a preset and its changed settings is what a program makes of them: the
same settings, or the same error. -/
def Agrees (text : String) (preset : Preset) (change : Override) : Prop :=
  (Analysis.ofText text).map Analysis.effectivePointsTo =
    (Analysis.adjustPointsTo { preset } change.applyTo).build.map Analysis.effectivePointsTo

/-! ### Documents -/

theorem defaultField_eq {α : Type} (default : α) (read : Yaml → Option α) (field : Option Yaml) :
    Yaml.defaultField default read field = (given? read field).map (·.getD default) := by
  cases field with
  | none => rfl
  | some value => cases h : read value <;> simp [Yaml.defaultField, given?, h]

/-- Where a document says something about the points-to analysis, the rest is standard. -/
theorem pointsTo_ofYaml? (yaml : Yaml) :
    PointsTo.ofYaml? yaml = (ofYaml? yaml).map (·.applyTo .standard) := by
  unfold PointsTo.ofYaml? ofYaml?
  simp only [defaultField_eq]
  cases yaml.record? ["context", "heap_context_depth"] with
  | none => rfl
  | some fields =>
    simp only [Option.bind_eq_bind, Option.bind_some]
    cases given? Strategy.ofYaml? (fields.lookup "context") with
    | none => rfl
    | some context =>
      cases given? (fun depth => Yaml.optionalField Yaml.word64? (some depth))
          (fields.lookup "heap_context_depth") with
      | none => rfl
      | some heapDepth => rfl

variable {document : Yaml} {preset : Preset} {change : Override}

/-- A stage that has settings is read from them. -/
theorem optionalField_of_ne_null {α : Type} {read : Yaml → Option α} {value : Yaml}
    (h : value ≠ .null) : Yaml.optionalField read (some value) = (read value).map some := by
  cases value with
  | null => exact absurd rfl h
  | _ => rfl

/-- A document is read like the standard settings with its own in their place. -/
theorem exists_ofYaml (h : ofDocument? document = some (preset, change)) : ∃ dataflow,
    Analysis.ofYaml document =
      Analysis.build { preset, pointsTo := some (change.applyTo .standard), dataflow } := by
  simp only [ofDocument?, Option.bind_eq_bind, Option.bind_eq_some_iff] at h
  obtain ⟨version, hversion, fields, hfields, named, hnamed, name, hname, preset', hpreset,
    overrides, hoverrides, stages, hstages, dataflow, hdataflow, h⟩ := h
  split at h
  · cases h
  · cases h
  next settings hnull hsettings =>
    obtain ⟨change', hchange, hresult⟩ := Option.bind_eq_some_iff.mp h
    cases hresult
    have hstage : Yaml.optionalField PointsTo.ofYaml? (stages.lookup "pta") =
        some (some (change.applyTo .standard)) := by
      rw [hsettings, optionalField_of_ne_null hnull, pointsTo_ofYaml?, hchange]
      rfl
    have hnotNull : overrides ≠ .null := by
      rintro rfl
      cases hstages
      cases hsettings
    have hcontent : Analysis.contentOf? document =
        some (name, some (change.applyTo .standard), dataflow) := by
      simp [Analysis.contentOf?, hfields, hnamed, hname, hoverrides,
        optionalField_of_ne_null hnotNull, Analysis.overridesOf?, hstages, hstage, hdataflow]
    refine ⟨dataflow, ?_⟩
    simp only [Analysis.ofYaml, eq_ok_of_toOption hversion, ok_bind, hcontent,
      eq_ok_of_toOption hpreset]

end Override

/-! ### Settings and their errors -/

namespace PointsTo

variable {config other : PointsTo} {error : Error}

/-- The settings themselves, if they do not contradict themselves. -/
def checked (config : PointsTo) : Except Error PointsTo := do
  config.validate
  return config

theorem build_pointsTo (preset : Preset) (config : PointsTo) (dataflow : Option Dataflow) :
    (Analysis.build { preset, pointsTo := some config, dataflow }).map
      Analysis.effectivePointsTo = config.checked := by
  have hvalidate : Analysis.validate { preset, pointsTo := some config, dataflow } =
      config.validate := rfl
  rw [Analysis.build, checked, hvalidate]
  cases config.validate with
  | error e => rfl
  | ok _ => rfl

theorem checked_eq_ok_iff : config.checked = .ok other ↔
    config = other ∧ config.depthError? = none ∧ config.heapError? = none := by
  unfold checked validate
  cases config.depthError? with
  | some e => simp [bind, Except.bind]
  | none => cases config.heapError? <;> simp [bind, Except.bind]

theorem checked_eq_error_iff : config.checked = .error error ↔
    config.depthError? = some error ∨
      config.depthError? = none ∧ config.heapError? = some error := by
  unfold checked validate
  cases config.depthError? with
  | some e => simp [bind, Except.bind]
  | none => cases config.heapError? <;> simp [bind, Except.bind]

/-- The advice on contexts of objects that are too deep names the depth of calls. -/
theorem exists_issue (h : config.heapError? = some error) : ∃ issue, error =
    .conflict issue ("set heap_context_depth to at most " ++ toString config.context.depth) := by
  simp only [heapError?] at h
  split at h
  · cases h
  · split at h
    · cases h
    · cases h
      exact ⟨_, rfl⟩

/-- Whether a depth is refused depends on the contexts of calls alone. -/
theorem depthError?_congr (h : config.context = other.context) :
    config.depthError? = other.depthError? := by
  simp only [depthError?, h]

theorem exists_depthError?_iff : (∃ error, config.depthError? = some error) ↔
    config.context ≠ .insensitive ∧
      (config.context.depth = 0 ∨ maxDepth < config.context.depth) := by
  have hbounds : ¬ (config.context = .insensitive ∨
      1 ≤ config.context.depth ∧ config.context.depth ≤ maxDepth) ↔
      config.context ≠ .insensitive ∧
        (config.context.depth = 0 ∨ maxDepth < config.context.depth) := by
    grind
  rw [← hbounds]
  simp [depthError?]

theorem depthError?_ofPreset (preset : Preset) : (ofPreset preset).depthError? = none := by
  cases preset <;> rfl

/-- Presets other than the standard one have contexts of another depth. -/
theorem eq_balanced_of_advice {preset : Preset}
    (h : "set heap_context_depth to at most " ++ toString standard.context.depth =
      "set heap_context_depth to at most " ++ toString (ofPreset preset).context.depth) :
    preset = .balanced := by
  revert h
  cases preset <;> decide

end PointsTo

namespace Override

open Config.PointsTo

/-- What a preset adds to the given settings is what the standard settings add, or the given
context is refused whatever is added. -/
def Indifferent (preset : Preset) (change : Override) : Prop :=
  change.applyTo .standard = change.applyTo (.ofPreset preset) ∨
    ∃ context, change.context = some context ∧ context ≠ .insensitive ∧
      (context.depth = 0 ∨ maxDepth < context.depth)

variable {document : Yaml} {preset : Preset} {change : Override}

/-- Without a context of its own a change has that of the settings it is applied to, and only the
contexts of objects can be too deep. -/
theorem exists_advice {base : Preset} {error : Error} (hcontext : change.context = none)
    (h : (change.applyTo (.ofPreset base)).checked = .error error) : ∃ issue, error =
    .conflict issue ("set heap_context_depth to at most " ++
      toString (PointsTo.ofPreset base).context.depth) := by
  have hsame : (change.applyTo (.ofPreset base)).context = (PointsTo.ofPreset base).context := by
    simp [applyTo, hcontext]
  have hallowed : (change.applyTo (.ofPreset base)).depthError? = none :=
    (depthError?_congr hsame).trans (depthError?_ofPreset base)
  rcases checked_eq_error_iff.mp h with hdepth | ⟨-, hheap⟩
  · rw [hallowed] at hdepth
    cases hdepth
  · rw [← hsame]
    exact exists_issue hheap

/-- A refusal that both ways share is about the given context, or all settings are given. -/
theorem indifferent_of_error {error : Error}
    (hstandard : (change.applyTo .standard).checked = .error error)
    (hpreset : (change.applyTo (.ofPreset preset)).checked = .error error) :
    Indifferent preset change := by
  cases hcontext : change.context with
  | some context =>
    rcases checked_eq_error_iff.mp hstandard with hdepth | ⟨-, hheap⟩
    · have hrefused := exists_depthError?_iff.mp ⟨error, hdepth⟩
      simp only [applyTo, hcontext, Option.getD_some] at hrefused
      exact .inr ⟨context, hcontext, hrefused⟩
    · cases hgiven : change.heapDepth with
      | some heapDepth => exact .inl (by simp [applyTo, hcontext, hgiven])
      | none =>
        -- The standard settings say nothing on objects, so nothing can be too deep.
        have hnone : (change.applyTo .standard).heapDepth = none := by
          rw [applyTo, hgiven]
          rfl
        simp [heapError?, hnone] at hheap
  | none =>
    -- Even the errors differ, because each tells the depth of its own contexts.
    obtain ⟨issue, hissue⟩ := exists_advice hcontext hstandard
    obtain ⟨issue', hissue'⟩ := exists_advice hcontext hpreset
    obtain rfl := eq_balanced_of_advice (Error.conflict.inj (hissue.symm.trans hissue')).2
    exact .inl rfl

theorem checked_applyTo_eq_iff (preset : Preset) (change : Override) :
    (change.applyTo .standard).checked = (change.applyTo (.ofPreset preset)).checked ↔
      Indifferent preset change := by
  constructor
  · intro h
    cases hstandard : (change.applyTo .standard).checked with
    | ok config =>
      rw [hstandard] at h
      have hleft := (checked_eq_ok_iff.mp hstandard).1
      have hright := (checked_eq_ok_iff.mp h.symm).1
      exact .inl (hleft.trans hright.symm)
    | error error => exact indifferent_of_error hstandard (h.symm.trans hstandard)
  · rintro (heq | ⟨context, hcontext, hrefused⟩)
    · rw [heq]
    · have hsame (base : PointsTo) :
          (change.applyTo base).depthError? = (PointsTo.mk context none).depthError? :=
        depthError?_congr (by simp [applyTo, hcontext])
      obtain ⟨error, herror⟩ : ∃ error, (PointsTo.mk context none).depthError? = some error :=
        exists_depthError?_iff.mpr hrefused
      have hchecked (base : PointsTo) : (change.applyTo base).checked = .error error :=
        checked_eq_error_iff.mpr (.inl ((hsame base).trans herror))
      rw [hchecked, hchecked]

/-! ### Texts -/

variable {text : String}

theorem ofText_eq_checked (hparse : Yaml.parse? text = some document)
    (hdocument : ofDocument? document = some (preset, change)) :
    (Analysis.ofText text).map Analysis.effectivePointsTo =
      (change.applyTo .standard).checked := by
  obtain ⟨dataflow, hread⟩ := exists_ofYaml hdocument
  rw [Analysis.ofText, hparse]
  simp only [hread, build_pointsTo]

theorem agrees_iff_indifferent (hparse : Yaml.parse? text = some document)
    (hdocument : ofDocument? document = some (preset, change)) :
    Agrees text preset change ↔ Indifferent preset change := by
  have hbuilt : (Analysis.adjustPointsTo { preset } change.applyTo).build.map
      Analysis.effectivePointsTo = (change.applyTo (.ofPreset preset)).checked :=
    build_pointsTo preset _ none
  rw [Agrees, ofText_eq_checked hparse hdocument, hbuilt, checked_applyTo_eq_iff]

/-- The numbers of a change have 64 bits. -/
def Fits (change : Override) : Prop :=
  (∀ context, change.context = some context → context.depth < UInt64.size) ∧
    ∀ depth, change.heapDepth = some (some depth) → depth < UInt64.size

/-- A strategy as a mapping. -/
def strategyYaml : Strategy → Yaml
  | .insensitive => .mapping [(.text "kind", .text "insensitive")]
  | context => .mapping [(.text "kind", .text context.name), (.text "k", .integer context.depth)]

/-- The depth of the contexts of objects, null when absent. -/
def depthYaml (depth : Option Nat) : Yaml := depth.elim .null fun depth => .integer depth

/-- The settings of a change as a mapping. -/
def toYaml (change : Override) : Yaml :=
  .mapping ((change.context.elim [] fun context => [(.text "context", strategyYaml context)]) ++
    change.heapDepth.elim [] fun depth => [(.text "heap_context_depth", depthYaml depth)])

/-- A document with the settings of a change. -/
def toDocument (preset : Preset) (change : Override) : Yaml :=
  .mapping [(.text "version", .integer 1), (.text "preset", .text preset.name),
    (.text "overrides", .mapping [(.text "pta", change.toYaml)])]

theorem word64?_integer {n : Nat} (h : n < UInt64.size) :
    Yaml.word64? (.integer n) = some n := by
  simp [Yaml.word64?, Yaml.untag, h]

theorem ofYaml?_strategyYaml {context : Strategy} (h : context.depth < UInt64.size) :
    Strategy.ofYaml? (strategyYaml context) = some context := by
  have hnumbered (kind : Nat → Strategy) {k : Nat} (hk : k < UInt64.size) :
      (Yaml.word64? (.integer k)).map kind = some (kind k) := by
    rw [word64?_integer hk, Option.map_some]
  cases context with
  | insensitive => rfl
  | callSite k => exact hnumbered .callSite h
  | object k => exact hnumbered .object h
  | type k => exact hnumbered .type h

theorem optionalField_depthYaml {depth : Option Nat}
    (h : ∀ n, depth = some n → n < UInt64.size) :
    Yaml.optionalField Yaml.word64? (some (depthYaml depth)) = some depth := by
  cases depth with
  | none => rfl
  | some n =>
    have hnotNull : depthYaml (some n) ≠ .null := nofun
    rw [optionalField_of_ne_null hnotNull, depthYaml, Option.elim_some,
      word64?_integer (h n rfl), Option.map_some]

theorem given?_map {α : Type} {read : Yaml → Option α} {write : α → Yaml} {field : Option α}
    (h : ∀ a, field = some a → read (write a) = some a) :
    given? read (field.map write) = some field := by
  cases field with
  | none => rfl
  | some a => simp [given?, h a rfl]

theorem ofYaml?_toYaml (h : change.Fits) : ofYaml? change.toYaml = some change := by
  obtain ⟨fields, hfields, hcontext, hdepth⟩ : ∃ fields,
      change.toYaml.record? ["context", "heap_context_depth"] = some fields ∧
        fields.lookup "context" = change.context.map strategyYaml ∧
          fields.lookup "heap_context_depth" = change.heapDepth.map depthYaml := by
    obtain ⟨_ | context, _ | depth⟩ := change <;> exact ⟨_, rfl, rfl, rfl⟩
  have hstrategy : given? Strategy.ofYaml? (fields.lookup "context") = some change.context := by
    rw [hcontext]
    exact given?_map fun context hgiven => ofYaml?_strategyYaml (h.1 context hgiven)
  have hnumber : given? (fun depth => Yaml.optionalField Yaml.word64? (some depth))
      (fields.lookup "heap_context_depth") = some change.heapDepth := by
    rw [hdepth]
    refine given?_map fun depth hgiven => optionalField_depthYaml fun n hn => h.2 n ?_
    rw [hgiven, hn]
  simp [ofYaml?, hfields, hstrategy, hnumber]

theorem ofDocument?_toDocument (preset : Preset) (h : change.Fits) :
    ofDocument? (toDocument preset change) = some (preset, change) := by
  have hread : ofDocument? (toDocument preset change) =
      (ofYaml? change.toYaml).bind fun change => some (preset, change) := by
    cases preset <;> rfl
  rw [hread, ofYaml?_toYaml h, Option.bind_some]

/-- A text in which the context is given and the rest left out. -/
def contextText (preset kind : String) : String :=
  "version: 1\npreset: " ++ preset ++
    "\noverrides:\n  pta:\n    context:\n      kind: " ++ kind ++ "\n      k: 2\n"

/-- Every change can be given with every preset.  A text that gives it fills what it leaves out
from the standard settings and not from the preset, so that it agrees with a program only where
this makes no difference. -/
theorem text_fills_standard (preset : Preset) (change : Override) :
    (change.Fits → ofDocument? (toDocument preset change) = some (preset, change)) ∧
      ∀ text document, Yaml.parse? text = some document →
        ofDocument? document = some (preset, change) →
          (Analysis.ofText text).map Analysis.effectivePointsTo =
            (change.applyTo .standard).checked ∧
          (Agrees text preset change ↔ Indifferent preset change) := by
  refine ⟨ofDocument?_toDocument preset, fun text document hparse hdocument => ⟨?_, ?_⟩⟩
  · exact ofText_eq_checked hparse hdocument
  · exact agrees_iff_indifferent hparse hdocument

/-- The fast preset leaves the contexts of objects as the standard settings do. -/
theorem text_fills_standard_fast : ∃ document,
    Yaml.parse? (contextText "fast" "call_site") = some document ∧
      ofDocument? document = some (.fast, { context := some (.callSite 2) }) ∧
      Agrees (contextText "fast" "call_site") .fast { context := some (.callSite 2) } := by
  have hgiven : (Yaml.parse? (contextText "fast" "call_site")).bind ofDocument? =
      some (.fast, { context := some (.callSite 2) }) := by
    decide +kernel
  obtain ⟨document, hparse, hdocument⟩ := Option.bind_eq_some_iff.mp hgiven
  have hagrees := ((text_fills_standard _ _).2 _ document hparse hdocument).2
  exact ⟨document, hparse, hdocument, hagrees.mpr (.inl rfl)⟩

/-- The thorough preset sets the contexts of objects, and a text that gives only the contexts of
calls loses that setting. -/
theorem text_loses_preset : ∃ document,
    Yaml.parse? (contextText "thorough" "type") = some document ∧
      ofDocument? document = some (.thorough, { context := some (.type 2) }) ∧
      (Analysis.ofText (contextText "thorough" "type")).map Analysis.effectivePointsTo =
        .ok ⟨.type 2, none⟩ ∧
      (Analysis.adjustPointsTo { preset := .thorough }
          (applyTo { context := some (.type 2) })).build.map Analysis.effectivePointsTo =
        .ok ⟨.type 2, some 1⟩ ∧
      ¬ Agrees (contextText "thorough" "type") .thorough { context := some (.type 2) } := by
  have hgiven : (Yaml.parse? (contextText "thorough" "type")).bind ofDocument? =
      some (.thorough, { context := some (.type 2) }) := by
    decide +kernel
  obtain ⟨document, hparse, hdocument⟩ := Option.bind_eq_some_iff.mp hgiven
  have htext := ofText_eq_checked hparse hdocument
  refine ⟨document, hparse, hdocument, htext, rfl, ?_⟩
  rw [agrees_iff_indifferent hparse hdocument]
  rintro (hsame | ⟨context, hcontext, hrefused⟩)
  · cases hsame
  · cases hcontext
    revert hrefused
    decide

end Override

end ObjectFlow.Config
