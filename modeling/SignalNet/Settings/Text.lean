import SignalNet.Decimal.Layout
import SignalNet.Decimal.Reader
import SignalNet.Scalar.Double
import SignalNet.Settings
import SignalNet.Yaml.Tree

/-!
# Settings as text

Settings are kept as a YAML mapping:

    cycle_period_s: 0.004
    completion_tolerance: 0.001

Any mapping is read, and so is an empty text.  Missing keys keep their
standard value, unknown keys are passed over whatever they hold, and a known
key may appear only once and must hold a number.
-/

namespace SignalNet.Settings

/-- The number a plain word denotes: a finite decimal, an infinity or a NaN. -/
def number? (word : String) : Option Float :=
  let unsigned := match word.toList with
    | '+' :: rest => rest
    | cs => cs
  if word.startsWith "++" || word.startsWith "+-" then none
  else if [".inf", ".Inf", ".INF"].contains (String.ofList unsigned) then some (1.0 / 0.0)
  else if ["-.inf", "-.Inf", "-.INF"].contains word then some (-1.0 / 0.0)
  else if [".nan", ".NaN", ".NAN"].contains word then some (0.0 / 0.0)
  else match Decimal.Exact.read? (String.ofList unsigned) with
    | some d => if d.toFloat.isFinite then some d.toFloat else none
    | none => none

/-- The type of numbers. -/
def numberTag : String :=
  "tag:yaml.org,2002:float"

/-- The number that a scalar holds.  Only a plain scalar is a number by its
look; lines kept as they are must be tagged as one. -/
def scalarNumber? (s : Yaml.Scalar) : Option Float :=
  if s.style = .plain ∨ (s.style = .literal ∧ s.tag = some numberTag) then number? s.text
  else none

/-- The number of a known key, `standard` if the key is missing. -/
def field? (tree : Yaml.Tree) (entries : List (String × Yaml.Node)) (key : String)
    (standard : Float) : Option Float :=
  match entries.filter (·.1 == key) with
  | [] => some standard
  | [(_, value)] => (tree.anchors.scalar? value).bind scalarNumber?
  | _ => none

/-- Read settings without checking them. -/
def fields? (text : String) : Option (Settings Float) := do
  let tree ← Yaml.Tree.read? text
  let entries ← tree.entries?
  let usual : Settings Float := standard
  let period ← field? tree entries "cycle_period_s" usual.cyclePeriod
  let tolerance ← field? tree entries "completion_tolerance" usual.completionTolerance
  return ⟨period, tolerance⟩

/-- Read settings and check them. -/
def read (text : String) : Except (SettingsError Float) (Settings Float) :=
  match fields? text with
  | none => .error .unreadable
  | some s => s.check.map fun _ => s

/-- Settings as a mapping in block form. -/
def write (s : Settings Float) : String :=
  "cycle_period_s: " ++ Decimal.Layout.settings.write s.cyclePeriod ++ "\n" ++
  "completion_tolerance: " ++ Decimal.Layout.settings.write s.completionTolerance ++ "\n"

end SignalNet.Settings
