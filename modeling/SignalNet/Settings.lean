import SignalNet.Scalar
import SignalNet.Decimal.Layout

/-!
# Settings

The options of a compilation: the nominal length of a cycle, and the distance
below which a ramp counts as arrived.
-/

namespace SignalNet

/-- Options of a compilation. -/
structure Settings (α : Type) where
  /-- Nominal cycle length in seconds. -/
  cyclePeriod : α
  /-- Distance below which a ramp counts as arrived. -/
  completionTolerance : α
  deriving DecidableEq, Repr

/-- What can be wrong with settings. -/
inductive SettingsError (α : Type)
  /-- The text is no mapping of the known keys to numbers. -/
  | unreadable
  /-- The cycle period is not positive. -/
  | cyclePeriod (value : α)
  /-- The completion tolerance is negative. -/
  | completionTolerance (value : α)
  deriving DecidableEq, Repr

namespace Settings

variable {α : Type} [Scalar α]

/-- Cycles of four milliseconds and a tolerance of one thousandth. -/
def standard : Settings α := ⟨Scalar.decimal 4 3, Scalar.decimal 1 3⟩

/-- Both settings must be finite, the period positive, the tolerance not
negative. -/
def check (s : Settings α) : Except (SettingsError α) Unit :=
  if !(Scalar.isFinite s.cyclePeriod && Scalar.lt 0 s.cyclePeriod) then
    .error (.cyclePeriod s.cyclePeriod)
  else if !(Scalar.isFinite s.completionTolerance && Scalar.le 0 s.completionTolerance) then
    .error (.completionTolerance s.completionTolerance)
  else .ok ()

end Settings

/-- The sentence of a settings error; unreadable settings have none. -/
def SettingsError.message? : SettingsError Float → Option String
  | unreadable => none
  | cyclePeriod v =>
    some ("cycle_period_s must be positive, got " ++ Decimal.Layout.sentence.write v)
  | completionTolerance v =>
    some ("completion_tolerance must be non-negative, got " ++ Decimal.Layout.sentence.write v)

end SignalNet
