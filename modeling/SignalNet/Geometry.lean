/-!
# Vectors, rotations and poses

The data of rigid geometry, over any type of scalars, and what is done with
them component by component.  Everything beyond that, such as lengths and
rotated vectors, belongs to the scalars.

A pose is a position and a rotation, the rotation being a quaternion that is
never normalised again.
-/

namespace SignalNet

/-- A vector with three components. -/
structure Vec3 (α : Type) where
  x : α
  y : α
  z : α
  deriving DecidableEq, Repr

/-- A quaternion `w + x i + y j + z k`, stored as `(i, j, k, w)`. -/
structure Quaternion (α : Type) where
  i : α
  j : α
  k : α
  w : α
  deriving DecidableEq, Repr

/-- A rigid motion: rotate, then translate. -/
structure Pose (α : Type) where
  position : Vec3 α
  rotation : Quaternion α
  deriving DecidableEq, Repr

variable {α : Type}

namespace Vec3

def zero [Zero α] : Vec3 α := ⟨0, 0, 0⟩

def map (f : α → α) (v : Vec3 α) : Vec3 α := ⟨f v.x, f v.y, f v.z⟩

def neg [Neg α] (v : Vec3 α) : Vec3 α := ⟨-v.x, -v.y, -v.z⟩

def add [Add α] (a b : Vec3 α) : Vec3 α := ⟨a.x + b.x, a.y + b.y, a.z + b.z⟩

def sub [Sub α] (a b : Vec3 α) : Vec3 α := ⟨a.x - b.x, a.y - b.y, a.z - b.z⟩

def scale [Mul α] (v : Vec3 α) (s : α) : Vec3 α := ⟨v.x * s, v.y * s, v.z * s⟩

def divide [Div α] (v : Vec3 α) (s : α) : Vec3 α := ⟨v.x / s, v.y / s, v.z / s⟩

/-- The component at a position below three. -/
def get? (v : Vec3 α) : Nat → Option α
  | 0 => some v.x
  | 1 => some v.y
  | 2 => some v.z
  | _ => none

end Vec3

namespace Quaternion

/-- No rotation. -/
def identity [Zero α] [One α] : Quaternion α := ⟨0, 0, 0, 1⟩

def map (f : α → α) (q : Quaternion α) : Quaternion α := ⟨f q.i, f q.j, f q.k, f q.w⟩

end Quaternion

namespace Pose

/-- The motion that moves nothing. -/
def identity [Zero α] [One α] : Pose α := ⟨.zero, .identity⟩

def map (f : α → α) (p : Pose α) : Pose α := ⟨p.position.map f, p.rotation.map f⟩

end Pose

end SignalNet
