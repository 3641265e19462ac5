import SignalNet.Table
import SignalNet.Value

/-!
# Hosts

The host is what surrounds a network when it is built: drivers that know which
devices are present and what their sensors read last, and a topology that
knows which chain of relations connects two frames.  To the rest of the
library a host is just four functions.
-/

namespace SignalNet

variable {α : Type}

/-- One hop on the way from one frame to another. -/
inductive Hop (α : Type)
  /-- A relation that never changes. -/
  | fixed (pose : Pose α)
  /-- A relation that a sensor measures, possibly in the opposite direction. -/
  | measured (sensor : String) (device : Option String) (inverted : Bool)
  deriving DecidableEq, Repr

/-- What the library asks its host. -/
structure Host (α : Type) where
  /-- The driver of a device is loaded and reachable. -/
  isPresent : String → Bool
  /-- The context that owns a device. -/
  contextOf : String → Option Nat
  /-- The last reading of a sensor. -/
  reading : String → Option (Value α)
  /-- The hops from one frame to another, if the frames are connected. -/
  path : String → String → Option (List (Hop α))

/-- A host without drivers that knows only that a frame is where it is. -/
def Host.offline : Host α where
  isPresent _ := false
  contextOf _ := none
  reading _ := none
  path source target := if source = target then some [] else none

/-- What is known about a device. -/
structure Device where
  present : Bool
  context : Option Nat
  deriving DecidableEq, Repr

/-- Devices and the last readings of sensors. -/
structure DeviceTable (α : Type) where
  devices : Table String Device := {}
  readings : Table String (Value α) := {}

namespace DeviceTable

/-- Enter a device that is present. -/
def addDevice (t : DeviceTable α) (device : String) (context : Option Nat) : DeviceTable α :=
  { t with devices := t.devices.insert device ⟨true, context⟩ }

/-- A known device comes or goes. -/
def setPresent (t : DeviceTable α) (device : String) (present : Bool) : DeviceTable α :=
  match t.devices.get? device with
  | some d => { t with devices := t.devices.insert device { d with present } }
  | none => t

/-- Record a reading of a sensor. -/
def record (t : DeviceTable α) (sensor : String) (value : Value α) : DeviceTable α :=
  { t with readings := t.readings.insert sensor value }

def isPresent (t : DeviceTable α) (device : String) : Bool :=
  (t.devices.get? device).any (·.present)

def contextOf (t : DeviceTable α) (device : String) : Option Nat :=
  (t.devices.get? device).bind (·.context)

end DeviceTable

/-- The hops between pairs of frames. -/
abbrev PathTable (α : Type) := Table (String × String) (List (Hop α))

/-- The host with the devices and paths of two tables.  A frame is always
connected with itself. -/
def Host.ofTables (devices : DeviceTable α) (paths : PathTable α) : Host α where
  isPresent := devices.isPresent
  contextOf := devices.contextOf
  reading sensor := devices.readings.get? sensor
  path source target := if source = target then some [] else paths.get? (source, target)

end SignalNet
