import ObjectFlow.Config.Stage

/-!
# The configuration of a whole analysis

A configuration is a preset with settings of its own for some of the stages.
-/

namespace ObjectFlow.Config

structure Analysis where
  preset : Preset
  pointsTo : Option PointsTo := none
  dataflow : Option Dataflow := none
  deriving DecidableEq, Repr

namespace Analysis

/-- The configuration that stands where none is given. -/
def standard : Analysis := { preset := .balanced }

/-- The settings of the points-to analysis that are used. -/
def effectivePointsTo (config : Analysis) : PointsTo :=
  config.pointsTo.getD (.ofPreset config.preset)

/-- The settings of the dataflow analysis that are used. -/
def effectiveDataflow (config : Analysis) : Dataflow :=
  config.dataflow.getD (.ofPreset config.preset)

/-- Changes the settings of the points-to analysis, starting from those in use. -/
def adjustPointsTo (config : Analysis) (change : PointsTo → PointsTo) : Analysis :=
  { config with pointsTo := some (change config.effectivePointsTo) }

/-- Changes the settings of the dataflow analysis, starting from those in use. -/
def adjustDataflow (config : Analysis) (change : Dataflow → Dataflow) : Analysis :=
  { config with dataflow := some (change config.effectiveDataflow) }

def validate (config : Analysis) : Except Error Unit := config.effectivePointsTo.validate

/-- The configuration itself, if it does not contradict itself. -/
def build (config : Analysis) : Except Error Analysis := do
  config.validate
  return config

end Analysis

end ObjectFlow.Config
