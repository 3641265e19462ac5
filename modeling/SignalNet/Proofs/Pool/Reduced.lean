import SignalNet.Proofs.Pool.Kinds
import SignalNet.Proofs.Pool.Replay

/-!
# Reduced pools

With folding on, a form is stored only when no simplification applies to it.
What has been stored stays that way, since simplifying looks at operands only,
and they do not change.  So no simplification applies to any composite node of a
pool that calls lead to (`Pool.Normal`), although no construction checks for
that.

* `Pool.Kept.run` takes calls apart: what adding leaves, counting placeholders,
  recording persisted values and building forms keep, every call keeps.
* `Pool.buildWithin_normalizes` is the step: building keeps pools normal.  The
  fuel matters here, since a form is stored as it is where fuel runs out.
* `Pool.Normal.build_stored` says that building a stored form gives the node
  that is there.
-/

namespace SignalNet.Pool

open Computing

variable {α : Type} [Scalar α]

/-! ### What calls keep -/

/-- The calls keep a relation between pools if their parts do: adding leaves,
counting placeholders, recording persisted values and building forms. -/
structure Kept (R : Pool α → Pool α → Prop) : Prop where
  refl : ∀ p, R p p
  trans : ∀ p q r, R p q → R q r → R p r
  leaf : ∀ n : Node α, n.form.isComposite = false → Sound (intern n) → Keeps R (intern n)
  placeholder : ∀ label kind scope, Keeps R (placeholder label kind scope)
  persist : ∀ source target, Keeps R (persist source target)
  build : ∀ form, Keeps R (build form)

namespace Kept

variable {R : Pool α → Pool α → Prop}

theorem ofExcept (h : Kept R) {β : Type} (x : Except (ExprError α) β) :
    Keeps R (Building.ofExcept x) := by
  cases x with
  | ok b => exact keeps_pure h.refl b
  | error e => exact keeps_throw h.refl e

theorem join (h : Kept R) (op : BinaryOp) (v : Value α) (terms : List ExprId) :
    Keeps R (constant v >>= fun first => terms.foldlM (binary op) first) :=
  keeps_bind h.trans (h.leaf _ rfl (constant_sound v)) fun first =>
    keeps_foldlM h.refl h.trans (fun x y => h.build (.binary op x y)) terms first

theorem custom (h : Kept R) (form : CustomForm α) : Keeps R (custom form) := by
  have hsound := custom_sound form
  unfold Pool.custom at hsound ⊢
  dsimp only at hsound ⊢
  split
  · exact keeps_throw h.refl _
  · next hfinite =>
    simp only [hfinite] at hsound
    split
    · next hempty =>
      rw [if_pos hempty] at hsound
      exact h.leaf _ (by simpa [Form.isComposite] using hempty) hsound
    · exact h.build _

theorem persisted (h : Kept R) (handle : Nat) : Keeps R (persisted handle) := by
  refine keeps_get_bind fun p => ?_
  refine keeps_bind h.trans (h.ofExcept _) (fun entry => ?_) p
  refine keeps_bind h.trans (h.ofExcept _) fun kind => ?_
  exact h.leaf _ rfl (intern_leaf_sound rfl rfl trivial rfl (by simp))

theorem substituteAll (h : Kept R) {one : ExprId → Rebuilt → Building α (ExprId × Rebuilt)}
    (hone : ∀ id done, Keeps R (one id done)) (ids : List ExprId) (done : Rebuilt) :
    Keeps R (substituteAll one ids done) := by
  induction ids generalizing done with
  | nil => exact keeps_pure h.refl _
  | cons id rest ih =>
      refine keeps_bind h.trans (hone id done) ?_
      rintro ⟨image, done⟩
      refine keeps_bind h.trans (ih done) ?_
      rintro ⟨images, done⟩
      exact keeps_pure h.refl _

theorem rebuild (h : Kept R) (id : ExprId) (form : Form α) (images : List ExprId) :
    Keeps R (rebuild id form images) := by
  unfold Pool.rebuild
  split
  · exact keeps_pure h.refl _
  · split
    · exact h.build _
    · exact keeps_throw h.refl _

theorem substituteWithin (h : Kept R) (map : Table ExprId ExprId) (fuel : Nat) (id : ExprId)
    (done : Rebuilt) : Keeps R (substituteWithin map fuel id done) := by
  induction fuel using Nat.strongRecOn generalizing id done with
  | _ fuel ih =>
    unfold Pool.substituteWithin
    split
    · exact keeps_pure h.refl _
    · refine keeps_get_bind fun p => ?_
      refine keeps_bind h.trans (h.ofExcept _) (fun n => ?_) p
      split
      · exact keeps_pure h.refl _
      · refine keeps_bind h.trans (h.ofExcept _) fun _ => ?_
        cases fuel with
        | zero => exact keeps_pure h.refl _
        | succ fuel =>
          refine keeps_bind h.trans
            (h.substituteAll (fun id done => ih fuel (Nat.lt_succ_self _) id done) _ _) ?_
          rintro ⟨images, done⟩
          exact keeps_bind h.trans (h.rebuild _ _ _) fun _ => keeps_pure h.refl _

/-- **What the parts keep, every call keeps.** -/
theorem run (h : Kept R) (c : Call α) : Keeps R c.run := by
  cases c with
  | constant v => exact h.leaf _ rfl (constant_sound v)
  | sensor name kind => exact h.leaf _ rfl (sensor_sound name kind)
  | deviceSensor host device name kind =>
      exact h.leaf _ rfl (deviceSensor_sound host device name kind)
  | input name kind scope => exact h.leaf _ rfl (input_sound name kind scope)
  | parameter name kind => exact h.leaf _ rfl (parameter_sound name kind)
  | clock signal => exact h.leaf _ rfl (clock_sound signal)
  | relation source target => exact h.leaf _ rfl (relation_sound source target)
  | placeholder label kind scope => exact h.placeholder label kind scope
  | persist source target => exact h.persist source target
  | all terms => exact h.join .and (.boolean true) terms
  | any terms => exact h.join .or (.boolean false) terms
  | custom form => exact h.custom form
  | substitute root map =>
      exact keeps_bind h.trans (h.substituteWithin map (root + 1) root .empty) fun _ =>
        keeps_pure h.refl _
  | persisted handle => exact h.persisted handle
  | _ => exact h.build _

theorem performAll (h : Kept R) (calls : List (Call α)) (p : Pool α) :
    R p (performAll calls p) := by
  induction calls generalizing p with
  | nil => exact h.refl p
  | cons c rest ih => exact h.trans _ _ _ (h.run c p) (ih (c.perform p))

end Kept

/-! ### Pools in which nothing can be simplified -/

/-- A well-formed pool.  With folding on, no simplification applies to a
composite node in it. -/
structure Normal (p : Pool α) : Prop where
  wellFormed : p.WellFormed
  reduced : p.folding = true → ∀ {id : ExprId} {n : Node α}, p.get? id = some n →
    n.form.isComposite = true → p.simplify n.form n.kind = .keep

theorem normal_empty (folding : Bool) : ({ folding } : Pool α).Normal :=
  ⟨wellFormed_empty folding, fun _ _ _ h => by simp [get?] at h⟩

/-- A normal pool gives way to a normal pool that extends it. -/
def Normalizes (p q : Pool α) : Prop :=
  p.Normal → q.Normal ∧ p.Extends q

theorem normalizes_refl (p : Pool α) : p.Normalizes p :=
  fun hp => ⟨hp, .refl p⟩

theorem normalizes_trans (p q r : Pool α) (hpq : p.Normalizes q) (hqr : q.Normalizes r) :
    p.Normalizes r := by
  intro hp
  obtain ⟨hq, hextends⟩ := hpq hp
  obtain ⟨hr, hextends'⟩ := hqr hq
  exact ⟨hr, hextends.trans hextends'⟩

/-- What comes second starts where the first computation has succeeded. -/
theorem bind_normalizes {β γ : Type} {x : Building α β} {f : β → Building α γ} {p : Pool α}
    (hx : p.Normalizes (finalState (x p)))
    (hf : ∀ b p', x p = .ok b p' → p'.Normalizes (finalState (f b p'))) :
    p.Normalizes (finalState ((x >>= f) p)) := by
  cases hrun : x p with
  | error e p' =>
      rw [hrun] at hx
      rw [bind_of_error hrun]
      exact hx
  | ok b p' =>
      rw [hrun] at hx
      rw [bind_of_ok hrun]
      exact normalizes_trans _ _ _ hx (hf b p' hrun)

/-- A normal pool that has got more nodes, which cannot be simplified. -/
theorem Normal.enlarge {p q : Pool α} (h : p.Normal) (hq : p.Grows q)
    (hnew : ∀ {id : ExprId} {n : Node α}, q.get? id = some n → p.get? id = some n ∨
      (p.folding = true → n.form.isComposite = true → q.simplify n.form n.kind = .keep)) :
    q.Normal ∧ p.Extends q := by
  obtain ⟨hwell, hextends⟩ := hq h.wellFormed
  refine ⟨⟨hwell, ?_⟩, hextends⟩
  intro hfolding id n hn hcomposite
  have hfolding : p.folding = true := hextends.folding.symm.trans hfolding
  rcases hnew hn with hold | hkept
  · rw [simplify_congr h.wellFormed hextends (h.wellFormed.admitted hold).before]
    exact h.reduced hfolding hold hcomposite
  · exact hkept hfolding hcomposite

/-- A node that adding leaves in the pool was there, or has been added. -/
theorem intern_get? {p : Pool α} {n m : Node α} {id : ExprId}
    (h : (finalState (intern n p)).get? id = some m) : p.get? id = some m ∨ m = n := by
  unfold intern at h
  cases hfind : p.find? n with
  | some i =>
      rw [hfind] at h
      exact Or.inl h
  | none =>
      rw [hfind] at h
      exact (get?_push_cases h).imp_right And.right

theorem intern_leaf_normalizes {n : Node α} (hleaf : n.form.isComposite = false)
    (hsound : Sound (intern n)) : Keeps Normalizes (intern n) := by
  intro p hp
  refine hp.enlarge (hsound p) ?_
  intro id m hm
  rcases intern_get? hm with hold | rfl
  · exact Or.inl hold
  · exact Or.inr fun _ hcomposite => absurd hcomposite (by simp [hleaf])

theorem placeholder_normalizes (label : String) (kind : Kind) (scope : Scope) :
    Keeps Normalizes (placeholder (α := α) label kind scope) := by
  intro p hp
  refine hp.enlarge (placeholder_sound label kind scope p) ?_
  intro id m hm
  rcases intern_get? hm with hold | rfl
  · exact Or.inl hold
  · exact Or.inr fun _ hcomposite => nomatch hcomposite

theorem persist_normalizes (source : ExprId) (target : Scope) :
    Keeps Normalizes (persist (α := α) source target) := by
  intro p hp
  refine hp.enlarge (persist_sound source target p) ?_
  intro id m hm
  refine Or.inl ?_
  unfold persist at hm
  rw [get_bind] at hm
  cases hscope : p.scopeOf source with
  | error e =>
      rw [hscope] at hm
      exact hm
  | ok scope =>
      rw [hscope, bind_of_ok (show Building.ofExcept (.ok scope) p = .ok scope p from rfl)] at hm
      split at hm <;> exact hm

/-- A form that stays as it is may be added. -/
theorem intern_form_normalizes {p : Pool α} {form : Form α} {scope : Scope} {kind : Kind}
    (hscope : p.joinScopes .global form.dependencies = .ok scope)
    (hkind : p.infer form = .ok kind)
    (hkept : p.folding = true → p.simplify form kind = .keep) :
    p.Normalizes (finalState (intern ⟨form, kind, scope, p.staysConstant form⟩ p)) := by
  intro hp
  have hgrows := intern_form_grows hscope hkind
  obtain ⟨-, hextends⟩ := hgrows hp.wellFormed
  refine hp.enlarge hgrows ?_
  intro id m hm
  rcases intern_get? hm with hold | rfl
  · exact Or.inl hold
  · refine Or.inr fun hfolding _ => ?_
    exact (simplify_congr hp.wellFormed hextends (lt_size_of_joinScopes hscope) kind).trans
      (hkept hfolding)

theorem constant_normalizes (v : Value α) : Keeps Normalizes (constant v) :=
  intern_leaf_normalizes rfl (constant_sound v)

/-- **Building** stores a form only if it stays as it is.  Replacements do not
end for lack of fuel. -/
theorem buildWithin_normalizes {p : Pool α} {fuel : Nat} {form : Form α}
    (hfuel : p.replacements form ≤ fuel) :
    p.Normalizes (finalState (buildWithin fuel form p)) := by
  induction fuel using Nat.strongRecOn generalizing form p with
  | _ fuel ih =>
    intro hp
    rw [buildWithin_apply]
    split
    · exact ⟨hp, .refl p⟩
    · next scope hscope =>
      split
      · exact ⟨hp, .refl p⟩
      · next kind hkind =>
        have hbound : p.Replacing (p.replacements form)
            (if p.folding then p.simplify form kind else .keep) := by
          split
          · exact simplify_replacing hp.wellFormed form kind
          · trivial
        cases hs : (if p.folding then p.simplify form kind else .keep) with
        | keep =>
            refine intern_form_normalizes hscope hkind ?_ hp
            intro hfolding
            rwa [if_pos hfolding] at hs
        | existing id => exact ⟨hp, .refl p⟩
        | value v => exact constant_normalizes v p hp
        | instead other =>
            rw [hs] at hbound
            have hless : p.replacements other < p.replacements form := hbound
            obtain ⟨less, rfl⟩ := Nat.exists_eq_add_one.mpr (show 0 < fuel by omega)
            exact ih less (Nat.lt_succ_self _) (by omega) hp
        | merge op x c =>
            rw [hs] at hbound
            have hless : x < p.replacements form := hbound
            obtain ⟨less, rfl⟩ := Nat.exists_eq_add_one.mpr
              (Nat.zero_lt_of_lt (Nat.lt_of_lt_of_le hless hfuel))
            refine bind_normalizes (f := fun d => buildWithin less (.binary op x d))
              (constant_normalizes c p) ?_ hp
            intro d p' hconstant
            -- The literal stands on the right, so only merging can go on.
            obtain ⟨w, hw⟩ := constant_literal hp.wellFormed hconstant
            have hx : p'.replacements (.binary op x d) = x := by simp [replacements, hw]
            refine ih less (Nat.lt_succ_self _) ?_
            rw [hx]
            exact Nat.le_of_lt_succ (Nat.lt_of_lt_of_le hless hfuel)

theorem build_normalizes (form : Form α) : Keeps Normalizes (build form) := by
  intro p
  show p.Normalizes (finalState (buildWithin (p.size + 2) form p))
  cases hscope : p.joinScopes .global form.dependencies with
  | error e =>
      rw [buildWithin_apply, hscope]
      exact normalizes_refl p
  | ok scope => exact buildWithin_normalizes (replacements_le p (lt_size_of_joinScopes hscope))

theorem kept_normalizes : Kept (Normalizes (α := α)) where
  refl := normalizes_refl
  trans := normalizes_trans
  leaf _ := intern_leaf_normalizes
  placeholder := placeholder_normalizes
  persist := persist_normalizes
  build := build_normalizes

/-- **Calls lead to normal pools.** -/
theorem Reachable.normal {p : Pool α} (h : p.Reachable) : p.Normal := by
  obtain ⟨folding, calls, rfl⟩ := h
  exact (kept_normalizes.performAll calls _ (normal_empty folding)).1

/-! ### Building what is stored -/

/-- **Building a stored form** gives the node that is there, and changes
nothing. -/
theorem Normal.build_stored {p : Pool α} (hp : p.Normal) {id : ExprId} {n : Node α}
    (hn : p.get? id = some n) (hcomposite : n.form.isComposite = true) :
    build n.form p = .ok id p := by
  have hadmits := hp.wellFormed.admitted hn
  have hkeep : (if p.folding then p.simplify n.form n.kind else .keep) = .keep := by
    split
    · next hfolding => exact hp.reduced hfolding hn hcomposite
    · rfl
  have hfixed : n.form.isFixedLeaf = false :=
    (isFixedLeaf_of_infer (hadmits.typed hcomposite)).1
  have hconstant : p.staysConstant n.form = n.constant := by
    rw [hadmits.constancy, hfixed, Bool.false_or]
  have hscope : p.joinScopes .global n.form.dependencies = .ok n.scope := hadmits.joined hcomposite
  show buildWithin (p.size + 2) n.form p = .ok id p
  rw [buildWithin_apply, hscope, hadmits.typed hcomposite]
  dsimp only
  rw [hkeep, hconstant]
  show intern n p = .ok id p
  unfold intern
  rw [hp.wellFormed.find?_eq_some_iff.mpr ⟨n, hn, rfl⟩]

end SignalNet.Pool
