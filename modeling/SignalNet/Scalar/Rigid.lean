import SignalNet.Geometry

/-!
# Rigid geometry in double precision

The order of the additions and multiplications is part of each definition,
since rounding makes it visible.
-/

namespace SignalNet

namespace Vec3

def dot (a b : Vec3 Float) : Float := a.x * b.x + a.y * b.y + a.z * b.z

def cross (a b : Vec3 Float) : Vec3 Float :=
  ⟨a.y * b.z - a.z * b.y, a.z * b.x - a.x * b.z, a.x * b.y - a.y * b.x⟩

/-- Euclidean length. -/
def norm (v : Vec3 Float) : Float := (v.dot v).sqrt

end Vec3

namespace Quaternion

/-- The vector part. -/
def imaginary (q : Quaternion Float) : Vec3 Float := ⟨q.i, q.j, q.k⟩

def conjugate (q : Quaternion Float) : Quaternion Float := ⟨-q.i, -q.j, -q.k, q.w⟩

def mul (a b : Quaternion Float) : Quaternion Float where
  w := a.w * b.w - a.i * b.i - a.j * b.j - a.k * b.k
  i := a.w * b.i + a.i * b.w + a.j * b.k - a.k * b.j
  j := a.w * b.j - a.i * b.k + a.j * b.w + a.k * b.i
  k := a.w * b.k + a.i * b.j - a.j * b.i + a.k * b.w

/-- The rotated vector. -/
def rotate (q : Quaternion Float) (v : Vec3 Float) : Vec3 Float :=
  let t := (q.imaginary.cross v).scale 2.0
  ((t.scale q.w).add (q.imaginary.cross t)).add v

/-- The rotation by roll, pitch and yaw, the components of `angles`. -/
def ofAngles (angles : Vec3 Float) : Quaternion Float :=
  let sr := (angles.x * 0.5).sin
  let cr := (angles.x * 0.5).cos
  let sp := (angles.y * 0.5).sin
  let cp := (angles.y * 0.5).cos
  let sy := (angles.z * 0.5).sin
  let cy := (angles.z * 0.5).cos
  { w := cr * cp * cy + sr * sp * sy
    i := sr * cp * cy - cr * sp * sy
    j := cr * sp * cy + sr * cp * sy
    k := cr * cp * sy - sr * sp * cy }

/-- Roll, pitch and yaw of a rotation.  When the pitch is a quarter turn the
other two are not determined, and the yaw is taken to be zero. -/
def angles (q : Quaternion Float) : Vec3 Float :=
  let quarterTurn := 1.5707963267948966
  let ww := q.w * q.w
  let ii := q.i * q.i
  let jj := q.j * q.j
  let kk := q.k * q.k
  let ij := q.i * q.j * 2.0
  let wk := q.w * q.k * 2.0
  let wj := q.w * q.j * 2.0
  let ik := q.i * q.k * 2.0
  let jk := q.j * q.k * 2.0
  let wi := q.w * q.i * 2.0
  let m00 := ww + ii - jj - kk
  let m01 := ij - wk
  let m02 := wj + ik
  let m10 := wk + ij
  let m20 := ik - wj
  let m21 := wi + jk
  let m22 := ww - ii - jj + kk
  if m20.abs < 1.0 then
    let pitch := -m20.asin
    let c := pitch.cos
    ⟨(m21 / c).atan2 (m22 / c), pitch, (m10 / c).atan2 (m00 / c)⟩
  else if m20 ≤ -1.0 then
    ⟨m01.atan2 m02, quarterTurn, 0.0⟩
  else
    ⟨-m01.atan2 (-m02), -quarterTurn, 0.0⟩

end Quaternion

namespace Pose

/-- `a.mul b` moves by `b` first, then by `a`. -/
def mul (a b : Pose Float) : Pose Float :=
  ⟨a.position.add (a.rotation.rotate b.position), a.rotation.mul b.rotation⟩

/-- The moved point. -/
def apply (p : Pose Float) (v : Vec3 Float) : Vec3 Float :=
  (p.rotation.rotate v).add p.position

def inverse (p : Pose Float) : Pose Float :=
  let back := p.rotation.conjugate
  ⟨back.rotate p.position.neg, back⟩

end Pose

end SignalNet
