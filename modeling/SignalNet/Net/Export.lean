import SignalNet.Document
import SignalNet.Net.Fragment

/-!
# Export of networks

A fragment as a JSON document, for inspection.  Blocks and ports are numbered
from one in it.
-/

namespace SignalNet

namespace Export

/-- A number counted from one. -/
def number (id : Nat) : Document := .integer (id + 1)

def optional (id : Option Nat) : Document :=
  match id with
  | some id => number id
  | none => .null

def reals (xs : List Float) : Document := .list (xs.map .real)

def vector (v : Vec3 Float) : Document := reals [v.x, v.y, v.z]

/-- A choice between named alternatives that carry something. -/
def tagged (name : String) (content : Document) : Document := .object [(name, content)]

def composite : Composite → Document
  | .vector => .text "Vector"
  | .transform => .text "Transform"

def kind : Kind → Document
  | .double => .text "Double"
  | .boolean => .text "Boolean"
  | .integer => .text "Integer"
  | .array n => tagged "DoubleArray" (.integer n)
  | .vector => tagged "Composed" (composite .vector)
  | .transform => tagged "Composed" (composite .transform)

def value : Value Float → Document
  | .double x => tagged "Double" (.real x)
  | .boolean b => tagged "Boolean" (.boolean b)
  | .integer n => tagged "Integer" (.integer n.toInt)
  | .array xs => tagged "DoubleArray" (reals xs)
  | .vector v => tagged "Vector" (vector v)
  | .transform p => tagged "Transform" (.object [
      ("rotation", reals [p.rotation.i, p.rotation.j, p.rotation.k, p.rotation.w]),
      ("translation", vector p.position)])

/-- The name of an operator in an export: the parts of its name, each with a
capital. -/
def operator (name : String) : Document :=
  .text (String.join ((name.splitOn "_").map String.capitalize))

def state : State → Document
  | .active => .text "Active"
  | .completed => .text "Completed"
  | .cancelled => .text "Cancelled"
  | .milestone name => tagged "Milestone" (.text name)

def signal : Signal → Document
  | .state s => tagged "State" (state s)
  | .exception c => tagged "Exception" (.object [
      ("name", .text c.name), ("ancestors", .list (c.ancestors.map .text))])

/-- The type of a primitive and its parameters. -/
def primitive : Primitive Float → String × List (String × Document)
  | .constant v => ("Constant", [("value", value v)])
  | .input name => ("Input", [("name", .text name)])
  | .sensor name device =>
    ("Sensor", [("name", .text name), ("device", (device.map Document.text).getD .null)])
  | .clock .time => ("Clock", [("signal", .text "Time")])
  | .clock .period => ("Clock", [("signal", .text "Period")])
  | .unary op => ("Unary", [("op", operator op.name)])
  | .binary op => ("Binary", [("op", operator op.name)])
  | .compare op => ("Compare", [("op", operator op.name)])
  | .select => ("Select", [])
  | .limit => ("Limit", [])
  | .smooth tau => ("Smooth", [("time_constant", .real tau)])
  | .rateLimit rate => ("RateLimit", [("max_rate", .real rate)])
  | .pre initial => ("Pre", [("initial", value initial)])
  | .edge rising => ("Edge", [("rising", .boolean rising)])
  | .pack => ("Pack", [])
  | .index position => ("Index", [("index", .integer position)])
  | .compose c => ("Compose", [("kind", composite c)])
  | .identity => ("Identity", [])
  | .latch => ("Latch", [])
  | .timer duration => ("Timer", [("duration", .real duration)])
  | .anyOf => ("AnyOf", [])
  | .allOf => ("AllOf", [])
  | .store slot => ("PersistStore", [("slot", .integer slot)])
  | .load slot => ("PersistLoad", [("slot", .integer slot)])
  | .custom typeName parameters =>
    ("Custom", [("type_name", .text typeName), ("params", reals parameters)])

def block (b : Block Float) (id : BlockId) : Document :=
  let (type, fields) := primitive b.primitive
  .object [
    ("id", number id), ("primitive", .object (("type", .text type) :: fields)),
    ("inputs", .list (b.inputs.map number)), ("output", optional b.output)]

def direction : Direction → Document
  | .input => .text "Input"
  | .output => .text "Output"

def port (p : Port) (id : PortId) : Document :=
  .object [
    ("id", number id), ("block", number p.block), ("direction", direction p.direction),
    ("kind", kind p.kind), ("slot", .integer p.slot)]

def connection (c : Connection) : Document :=
  .object [("from", number c.source), ("to", number c.target)]

end Export

/-- A fragment as a document. -/
def Fragment.toDocument (f : Fragment Float) : Document :=
  .object [
    ("blocks", .list (f.blocks.mapIdx fun id b => Export.block b id)),
    ("ports", .list (f.ports.mapIdx fun id p => Export.port p id)),
    ("connections", .list (f.connections.map Export.connection)),
    ("outputs", .object ((f.outputs.sorted textLe).map fun (name, id) =>
      (name, Export.number id))),
    ("states", .object [("entries", .list (f.signals.entries.map fun (s, id) =>
      .list [Export.signal s, Export.number id]))])]

end SignalNet
