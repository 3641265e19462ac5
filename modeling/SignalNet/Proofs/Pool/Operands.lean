import SignalNet.Proofs.Pool.Substitution

/-!
# Replacing operands

A form is its shape together with its operands (`Form.eq_of_shape`), and
`Form.withDependencies?` puts other operands into the shape.  It is the partial
inverse of taking a form apart: what comes out is *the* form with the shape of
the old one and the operands that were asked for
(`Form.withDependencies?_eq_some_iff`).  It fails if the operands are not as many
as before, and for the forms of the user that seal their operands.

The laws of a lens follow from that one equivalence (`Form.operands_lens`).
-/

namespace SignalNet

variable {α : Type}

namespace Form

/-- A form of the user whose operands may not be replaced. -/
def isSealed : Form α → Bool
  | custom c => !c.replaceable && !c.operands.isEmpty
  | _ => false

theorem isSealed_eq_true_iff {form : Form α} :
    form.isSealed = true ↔
      ∃ c, form = custom c ∧ c.replaceable = false ∧ c.operands ≠ [] := by
  cases form <;> simp [isSealed]

/-- What lowering looks up depends on the shape alone. -/
theorem keys_shape (form : Form α) : form.shape.keys = form.keys := by
  cases form <;> rfl

theorem keys_congr {form form' : Form α} (h : form.shape = form'.shape) :
    form.keys = form'.keys := by
  rw [← keys_shape form, h, keys_shape]

/-- A form that is given operands had as many, and does not seal them. -/
theorem length_of_withDependencies {form other : Form α} {ids : List ExprId}
    (h : form.withDependencies? ids = some other) :
    ids.length = form.dependencies.length ∧ form.isSealed = false := by
  unfold withDependencies? at h
  split at h <;> grind [dependencies, isLeaf, isSealed]

/-- As many operands as before can be given to a form that does not seal
them. -/
theorem exists_withDependencies {form : Form α} {ids : List ExprId}
    (hlength : ids.length = form.dependencies.length) (hopen : form.isSealed = false) :
    ∃ other, form.withDependencies? ids = some other := by
  cases form with
  | unary | smooth | rateLimit | pre | edge | index =>
      obtain ⟨x, rfl⟩ := List.length_eq_one_iff.mp hlength
      exact ⟨_, rfl⟩
  | binary | compare =>
      obtain ⟨x, y, rfl⟩ := List.length_eq_two.mp hlength
      exact ⟨_, rfl⟩
  | select | limit =>
      obtain ⟨x, y, z, rfl⟩ := List.length_eq_three.mp hlength
      exact ⟨_, rfl⟩
  | pack | compose => exact ⟨_, if_pos hlength.symm⟩
  | custom c =>
      by_cases hreplaceable : c.replaceable = true
      · exact ⟨_, if_pos ⟨hreplaceable, hlength.symm⟩⟩
      · -- A form without operands has nothing to seal.
        have hnone : c.operands = [] := by simpa [isSealed, hreplaceable] using hopen
        obtain rfl : ids = [] := by simpa [dependencies, hnone] using hlength
        exact ⟨custom c, by simp [withDependencies?, hnone, hreplaceable]⟩
  | _ =>
      obtain rfl := List.length_eq_zero_iff.mp hlength
      exact ⟨_, rfl⟩

/-- **What replacing operands means.**  The result is the form with the same
shape and the new operands. -/
theorem withDependencies?_eq_some_iff {form other : Form α} {ids : List ExprId} :
    form.withDependencies? ids = some other ↔
      (ids.length = form.dependencies.length ∧ form.isSealed = false) ∧
        other.shape = form.shape ∧ other.dependencies = ids := by
  constructor
  · intro h
    exact ⟨length_of_withDependencies h, shape_of_withDependencies h,
      dependencies_of_withDependencies h⟩
  · rintro ⟨⟨hlength, hopen⟩, hshape, hoperands⟩
    obtain ⟨result, hresult⟩ := exists_withDependencies hlength hopen
    rw [hresult, eq_of_shape ((shape_of_withDependencies hresult).trans hshape.symm)
      ((dependencies_of_withDependencies hresult).trans hoperands.symm)]

/-- Forms of one shape seal their operands together, if they have as many. -/
theorem isSealed_congr {form form' : Form α} (hshape : form.shape = form'.shape)
    (hlength : form.dependencies.length = form'.dependencies.length) :
    form.isSealed = form'.isSealed := by
  have hleaf := isLeaf_congr hlength
  cases form <;> cases form' <;> simp_all [shape, isSealed, isLeaf, dependencies]

/-- **Replacing operands is a lens.**  It succeeds exactly for as many operands
as the form has, unless the form is one of the user that has operands and seals
them.  Then the result has the new operands, and of everything else what the
form had: it is the only such form, and rules are found under the same keys.
Putting back the operands of the form changes nothing, and of two replacements
the second one counts. -/
theorem operands_lens (form : Form α) (ids : List ExprId) :
    ((∃ other, form.withDependencies? ids = some other) ↔
      ids.length = form.dependencies.length ∧
        ¬ ∃ c, form = custom c ∧ c.replaceable = false ∧ c.operands ≠ []) ∧
    ∀ other, form.withDependencies? ids = some other →
      other.dependencies = ids ∧ other.keys = form.keys ∧ other.shape = form.shape ∧
      (∀ form', form'.shape = form.shape → form'.dependencies = ids → form' = other) ∧
      form.withDependencies? form.dependencies = some form ∧
      ∀ later, other.withDependencies? later = form.withDependencies? later := by
  refine ⟨?_, ?_⟩
  · rw [← isSealed_eq_true_iff, Bool.not_eq_true]
    constructor
    · rintro ⟨other, h⟩
      exact length_of_withDependencies h
    · rintro ⟨hlength, hopen⟩
      exact exists_withDependencies hlength hopen
  · intro other h
    obtain ⟨⟨hlength, hopen⟩, hshape, hoperands⟩ := withDependencies?_eq_some_iff.mp h
    have hother : other.dependencies.length = form.dependencies.length := by
      rw [hoperands, hlength]
    refine ⟨hoperands, keys_congr hshape, hshape, ?_, ?_, ?_⟩
    · intro form' hshape' hoperands'
      exact eq_of_shape (hshape'.trans hshape.symm) (hoperands'.trans hoperands.symm)
    · exact withDependencies?_eq_some_iff.mpr ⟨⟨rfl, hopen⟩, rfl, rfl⟩
    · intro later
      ext result
      rw [withDependencies?_eq_some_iff, withDependencies?_eq_some_iff, hother, hshape,
        isSealed_congr hshape hother]

/-- A form of the user that blends two operands. -/
def Sample.blend (ids : List ExprId) : Form Float :=
  custom { typeName := "blend", capabilities := ["mix"], parameters := [0.5], operands := ids,
           kind := .double }

theorem blend_lens :
    (Sample.blend [3, 4]).withDependencies? [7, 7] = some (Sample.blend [7, 7]) ∧
    (Sample.blend [7, 7]).keys = (Sample.blend [3, 4]).keys ∧
    (Sample.blend [7, 7]).withDependencies? [3, 4] = some (Sample.blend [3, 4]) ∧
    ¬ ∃ other, (Sample.blend [3, 4]).withDependencies? [7] = some other := by
  have hreplaced : (Sample.blend [3, 4]).withDependencies? [7, 7] = some (Sample.blend [7, 7]) :=
    rfl
  obtain ⟨-, hlens⟩ := operands_lens (Sample.blend [3, 4]) [7, 7]
  obtain ⟨-, hkeys, -, -, hback, hlater⟩ := hlens _ hreplaced
  have hshort : ¬ ∃ other, (Sample.blend [3, 4]).withDependencies? [7] = some other := by
    rw [(operands_lens (Sample.blend [3, 4]) [7]).1]
    rintro ⟨hlength, -⟩
    cases hlength
  exact ⟨hreplaced, hkeys, (hlater _).trans hback, hshort⟩

end Form

end SignalNet
