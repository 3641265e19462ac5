import SignalNet.Compile.Compiler
import SignalNet.Document

/-!
# Views

A view is a short JSON document that shows a value, an expression or a network
to people and to tools.  Unlike an export it numbers blocks and ports from
zero, and it says which numbers are not finite.

Lists and pairs are shown as lists, and what is missing as `null`.
-/

namespace SignalNet

/-- Things that can be shown as a document. -/
class View (β : Type) where
  view : β → Document

export View (view)

/-! ### Data -/

instance : View Document := ⟨id⟩

instance : View Nat := ⟨fun n => .integer n⟩

instance : View Int64 := ⟨fun n => .integer n.toInt⟩

instance : View Bool := ⟨.boolean⟩

instance : View String := ⟨.text⟩

instance {β : Type} [View β] : View (List β) := ⟨fun xs => .list (xs.map view)⟩

instance {β : Type} [View β] : View (Option β) where
  view
    | some x => view x
    | none => .null

instance {β γ : Type} [View β] [View γ] : View (β × γ) :=
  ⟨fun (a, b) => .list [view a, view b]⟩

/-- Infinities, NaNs and the negative zero are shown as texts. -/
instance : View Float where
  view x :=
    if x.isNaN then .text "NaN"
    else if x.isInf then .text (if x < 0.0 then "-Infinity" else "Infinity")
    else if x == 0.0 && x.toBits != 0 then .text "-0.0"
    else .real x

instance : View (Vec3 Float) := ⟨fun v => view [v.x, v.y, v.z]⟩

instance : View (Quaternion Float) := ⟨fun q => view [q.i, q.j, q.k, q.w]⟩

instance : View (Value Float) where
  view
    | .double x => .object [("d", view x)]
    | .boolean b => .object [("b", view b)]
    | .integer n => .object [("i", view n)]
    | .array xs => .object [("a", view xs)]
    | .vector v => .object [("v", view v)]
    | .transform p => .object [("t", .object [("p", view p.position), ("q", view p.rotation)])]

instance : View Kind := ⟨fun k => .text k.text⟩

instance : View Scope := ⟨fun s => .text s.text⟩

instance : View State := ⟨fun s => .text s.text⟩

/-- A class of exceptions is shown with its ancestors. -/
instance : View ExceptionClass := ⟨fun c => view (c.name :: c.ancestors)⟩

instance : View Signal where
  view
    | .state s => .object [("state", view s)]
    | .exception c => .object [("exc", view c)]

/-! ### Expressions -/

/-- What a form has besides its name and its operands. -/
def Form.viewFields : Form Float → List (String × Document)
  | .constant v => [("value", view v)]
  | .sensor name device => [("name", view name), ("device", view device)]
  | .input name | .parameter name => [("name", view name)]
  | .clock signal => [("signal", view signal.name)]
  | .relation source target => [("from", view source), ("to", view target)]
  | .placeholder number label => [("id", view number), ("label", view label)]
  | .persisted handle => [("handle", view handle)]
  | .unary op _ => [("op", view op.name)]
  | .binary op _ _ => [("op", view op.name)]
  | .compare op _ _ => [("op", view op.name)]
  | .smooth _ tau => [("time_constant", view tau)]
  | .rateLimit _ rate => [("max_rate", view rate)]
  | .pre _ initial => [("initial", view initial)]
  | .edge _ rising => [("rising", view rising)]
  | .index _ position => [("index", view position)]
  | .custom c =>
    [("caps", view c.capabilities), ("params", view c.parameters), ("subst", view c.replaceable)]
  | .select _ _ _ | .limit _ _ _ | .pack _ | .compose _ _ => []

instance : View (Form Float) where
  view form :=
    .object (("k", view form.typeName) :: ("deps", view form.dependencies) :: form.viewFields)

/-- What is known about a node. -/
def Node.viewFields (n : Node Float) : List (String × Document) :=
  [("kind", view n.form), ("data", view n.kind), ("scope", view n.scope),
   ("constant", view n.constant)]

instance : View (Node Float) := ⟨fun n => .object n.viewFields⟩

instance : View (Pool Float) where
  view p := .object [
    ("empty", view p.nodes.isEmpty), ("folding", view p.folding), ("nodes", view p.nodes)]

/-! ### Networks -/

/-- The name under which a primitive is shown: its own, or that of its
family. -/
def Primitive.viewName : Primitive Float → String
  | .unary _ => "unary"
  | .binary _ => "binary"
  | .compare _ => "compare"
  | .custom _ _ => "custom"
  | p => p.name

/-- The parameters of a primitive. -/
def Primitive.viewFields : Primitive Float → List (String × Document)
  | .constant v => [("value", view v)]
  | .input name => [("name", view name)]
  | .sensor name device => [("name", view name), ("device", view device)]
  | .clock signal => [("signal", view signal.name)]
  | .unary op => [("op", view op.name)]
  | .binary op => [("op", view op.name)]
  | .compare op => [("op", view op.name)]
  | .smooth tau => [("time_constant", view tau)]
  | .rateLimit rate => [("max_rate", view rate)]
  | .pre initial => [("initial", view initial)]
  | .edge rising => [("rising", view rising)]
  | .index position => [("index", view position)]
  | .compose c => [("kind", view c.text)]
  | .timer duration => [("duration", view duration)]
  | .store slot | .load slot => [("slot", view slot)]
  | .custom name parameters => [("type", view name), ("params", view parameters)]
  | .select | .limit | .pack | .identity | .latch | .anyOf | .allOf => []

instance : View (Primitive Float) where
  view p := .object (("p", view p.viewName) :: p.viewFields)

instance : View (Block Float) where
  view b := .list [view b.primitive, view b.inputs, view b.output]

/-- The parts of a fragment. -/
def Fragment.viewFields (f : Fragment Float) : List (String × Document) :=
  [("blocks", view f.blocks), ("kinds", view (f.ports.map (·.kind))),
   ("wires", view (f.connections.map fun c => (c.source, c.target))),
   ("outputs", view (f.outputs.sorted textLe)), ("inputs", view f.inputNames),
   ("signals", view f.signals.entries)]

/-- What the ports of a compiled network stand for. -/
def CompiledNet.viewFields (net : CompiledNet Float) : List (String × Document) :=
  [("root", view net.root), ("states", view net.stateList),
   ("exceptions", view net.exceptionList), ("observed", view net.observedList)]

end SignalNet
