import SignalNet.Proofs.Compile.Completion
import SignalNet.Proofs.Net.Slots

/-!
# What lowering a target leaves to do

When the target of a request has been lowered, its sinks are all there, and the
placeholders that wait know where their values will come from.  What is done
afterwards, observing expressions included, adds no sink (`Session.Quiet`), and
takes sources that are there already, up to the constant that the ramps of a
bare action run by (`Session.Supplied`).

* `Session.finishing_quiet` and `Session.lowerTarget_quiet` say where no sink is
  added.
* `Session.lowerTarget_supplied` says that the sources of a target are lowered
  with it.
-/

namespace SignalNet

open Computing Lowering

namespace Session

variable {α : Type} [Scalar α] {program : Program α} {s s' : Session α}

/-! ### Sinks -/

omit [Scalar α] in
/-- No sink is added. -/
def Quiet (s s' : Session α) : Prop :=
  s.fragment.WellFormed → s'.fragment.WellFormed ∧
    ∀ b slot, s'.fragment.Writes b slot → s.fragment.Writes b slot

omit [Scalar α] in
theorem quiet_of_blocks (hwell : s.fragment.WellFormed → s'.fragment.WellFormed)
    (hblocks : s'.fragment.blocks = s.fragment.blocks) : s.Quiet s' := by
  refine fun h => ⟨hwell h, fun b slot hwrites => ?_⟩
  obtain ⟨blk, hblk, hprimitive⟩ := hwrites
  rw [hblocks] at hblk
  exact ⟨blk, hblk, hprimitive⟩

omit [Scalar α] in
/-- A block with an output is no sink. -/
theorem Added.quiet {f : Fragment α} {primitive : Primitive α} {sources : List PortId}
    {kinds : List Kind} {kind : Kind} {q : PortId}
    (h : Fragment.Added s.fragment f primitive sources kinds kind q) {b : BlockId} {slot : Nat}
    (hwrites : f.Writes b slot) : s.fragment.Writes b slot := by
  obtain ⟨blk, hblk, hprimitive⟩ := hwrites
  rcases h.block_cases hblk with hold | ⟨-, rfl⟩
  · exact ⟨blk, hold, hprimitive⟩
  · have hsink := h.valid.sink hblk
    rw [hprimitive] at hsink
    cases hsink

theorem stepwise_quiet : Stepwise (Quiet (α := α)) where
  refl s := quiet_of_blocks id rfl
  trans h₁ h₂ h := by
    obtain ⟨hwell₁, hold₁⟩ := h₁ h
    obtain ⟨hwell₂, hold₂⟩ := h₂ hwell₁
    exact ⟨hwell₂, fun b slot hwrites => hold₁ b slot (hold₂ b slot hwrites)⟩
  add := by
    intro primitive inputs kind s s' q hrun h
    obtain ⟨f, kinds, hadded, rfl⟩ := add_added h hrun
    exact ⟨hadded.valid, fun _ _ => Added.quiet hadded⟩
  constPort := by
    intro v s s' q hrun h
    rcases constPort_cases h hrun with ⟨-, rfl⟩ | ⟨-, f, hadded, rfl⟩
    · exact ⟨h, fun _ _ hwrites => hwrites⟩
    · exact ⟨hadded.valid, fun _ _ => Added.quiet hadded⟩

theorem quiet_lower (program : Program α) (id : ExprId) :
    Leaves Quiet (lower program id) := by
  refine stepwise_quiet.lower ?_ (fun s id q => quiet_of_blocks (fun h => h) rfl) id
  intro id n number label hn hform s s' q hrun h
  obtain ⟨hfits, -, rfl⟩ := openPlaceholder_eq_ok hn hform hrun
  refine ⟨h.withBlock hfits, fun b slot ⟨blk, hblk, hprimitive⟩ => ?_⟩
  rcases Fragment.withBlock_block_cases hblk with hold | ⟨-, rfl⟩
  · exact ⟨blk, hold, hprimitive⟩
  · cases hprimitive

/-- **Actions add no sinks.** -/
theorem acting_quiet (program : Program α) (targets : List ExprId) :
    Acting program targets Quiet where
  toStepwise := stepwise_quiet
  lower := quiet_lower program
  expose _ _ _ _ _ hrun := by
    obtain ⟨f, hcall, rfl⟩ := wire_eq_ok.mp hrun
    obtain ⟨-, -, -, hwell, hblocks, -⟩ := Fragment.expose_eq_ok hcall
    exact quiet_of_blocks hwell hblocks
  addResolver _ _ _ _ _ hrun := by
    obtain rfl := modify_eq_ok.mp hrun
    exact quiet_of_blocks id rfl
  milestone _ _ _ _ _ hrun := by
    obtain ⟨f, hcall, rfl⟩ := wire_eq_ok.mp hrun
    obtain rfl := Fragment.register_eq_ok hcall
    exact quiet_of_blocks (fun h => h.withSignals _) rfl

/-- **The end of a session adds no sinks.** -/
theorem finishing_quiet (program : Program α) : Finishing program Quiet where
  toExpressing := (acting_quiet program []).toExpressing
  resolve _ _ _ _ _ hrun := by
    obtain ⟨p, -, hports, hfree, rfl⟩ := resolve_eq_ok hrun
    exact quiet_of_blocks (fun h => h.withWire hports hfree) rfl

/-- What is no command adds no sinks. -/
theorem lowerTarget_quiet {target : Target α}
    (htarget : ∀ c, target ≠ .command c) : Leaves Quiet (lowerTarget program target) := by
  cases target with
  | expr id =>
      have hquiet := acting_quiet program []
      exact hquiet.bind (hquiet.lower id) fun _ => hquiet.bind (hquiet.expose _ _) fun _ =>
        hquiet.pure _
  | action a =>
      have hquiet := acting_quiet program (a.scalePlaceholders ++ a.positions)
      have haction : Leaves Quiet (lowerAction program a) :=
        hquiet.lowerAction fun id hid => List.mem_append_right _ hid
      rw [lowerTarget]
      dsimp only
      split
      · refine hquiet.bind (hquiet.addResolver _ fun id hid => List.mem_append_left _ hid) ?_
        exact fun _ => hquiet.bind haction fun _ => hquiet.pure _
      · exact hquiet.bind haction fun _ => hquiet.pure _
  | command c => exact absurd rfl (htarget c)

/-! ### Sources -/

/-- The source is there: an expression has been lowered, or is one of those
that are still to be lowered, and a constant is permitted. -/
def Provided (Permitted : Value α → Prop) (pending : List ExprId) (s : Session α) :
    Source α → Prop
  | .expression e => (∃ q, s.lowered.get? e = some q) ∨ e ∈ pending
  | .constant v => Permitted v
  | .port _ => True

/-- The sources that placeholders take their values from are there. -/
def Supplied (Permitted : Value α → Prop) (pending : List ExprId) (s : Session α) : Prop :=
  ∀ id r, s.resolver? id = some r → Provided Permitted pending s r.source

variable {Permitted : Value α → Prop} {pending rest : List ExprId}

theorem Provided.grow {targets : List ExprId} {source : Source α}
    (h : Provided Permitted pending s source) (hs : s.Grows targets s') :
    Provided Permitted pending s' source := by
  cases source with
  | expression e => exact h.imp_left fun ⟨q, hq⟩ => ⟨q, hs.lowered hq⟩
  | constant v => exact h
  | port q => exact h

omit [Scalar α] in
theorem Provided.mono {source : Source α} (h : Provided Permitted pending s source)
    (hrest : ∀ e ∈ pending, e ∈ rest ∨ ∃ q, s.lowered.get? e = some q) :
    Provided Permitted rest s source := by
  cases source with
  | expression e =>
      rcases h with hlowered | hpending
      · exact Or.inl hlowered
      · exact (hrest e hpending).symm
  | constant v => exact h
  | port q => exact h

theorem Supplied.grow (h : Supplied Permitted pending s) (hs : s.Grows [] s') :
    Supplied Permitted pending s' := by
  intro id r hr
  rw [hs.resolver?_eq List.not_mem_nil] at hr
  exact (h id r hr).grow hs

omit [Scalar α] in
theorem Supplied.mono (h : Supplied Permitted pending s)
    (hrest : ∀ e ∈ pending, e ∈ rest ∨ ∃ q, s.lowered.get? e = some q) :
    Supplied Permitted rest s :=
  fun id r hr => (h id r hr).mono hrest

omit [Scalar α] in
/-- A source that is collected has to be provided. -/
theorem Supplied.addResolver (h : Supplied Permitted pending s) {r : Resolver α}
    (hr : Provided Permitted pending s r.source) {u : Unit}
    (hrun : Session.addResolver r s = .ok u s') : Supplied Permitted pending s' := by
  obtain rfl := modify_eq_ok.mp hrun
  intro id r' hr'
  have hprovided : Provided Permitted pending s r'.source := by
    unfold resolver? at hr'
    rw [List.find?_append, Option.or_eq_some_iff] at hr'
    rcases hr' with hold | ⟨-, hnew⟩
    · exact h id r' hold
    · obtain rfl := List.mem_singleton.mp (List.mem_of_find?_eq_some hnew)
      exact hr
  cases hsource : r'.source with
  | expression e =>
      rw [hsource] at hprovided
      exact hprovided
  | constant v =>
      rw [hsource] at hprovided
      exact hprovided
  | port q => trivial

/-- Once an expression has been lowered, it is not pending any more. -/
theorem Supplied.lower (hwired : Wired program s) {e : ExprId}
    (h : Supplied Permitted (e :: pending) s) {q : PortId}
    (hrun : Session.lower program e s = .ok q s') : Supplied Permitted pending s' := by
  obtain ⟨⟨-, hgrows⟩, hentry⟩ : (Wired program s' ∧ s.Grows [] s') ∧ s'.lowered.get? e = some q :=
    hwired.lower hrun
  refine (h.grow hgrows).mono fun x hx => ?_
  rcases List.mem_cons.mp hx with rfl | hx
  · exact Or.inr ⟨q, hentry⟩
  · exact Or.inl hx

/-- The source for the position of a ramp is lowered with the ramp. -/
theorem lowerMotion_supplied (hwired : Wired program s)
    (h : Supplied Permitted pending s) {motion : Motion α} {result : Table String PortId × PortId}
    (hrun : lowerMotion program motion s = .ok result s') :
    Wired program s' ∧ Supplied Permitted pending s' := by
  have hclosed := closed_steps program []
  cases motion with
  | ramp channel position scale next distance =>
      obtain ⟨_, s₁, hresolver, hafter⟩ := bind_eq_ok.mp hrun
      obtain ⟨out, s₂, hnext, hafter⟩ := bind_eq_ok.mp hafter
      obtain ⟨h₁, -⟩ : Wired program s₁ ∧ s.Grows [position] s₁ :=
        (closed_steps program [position]).addResolver _ (fun _ hid => hid) _ _ _ hresolver hwired
      have hsupplied₁ : Supplied Permitted (next :: pending) s₁ := by
        refine Supplied.addResolver (h.mono fun e he => Or.inl (List.mem_cons_of_mem _ he)) ?_
          hresolver
        exact Or.inr List.mem_cons_self
      obtain ⟨h₂, -⟩ := hclosed.lower _ _ _ _ hnext h₁
      have hrest : Steps program [] s₂ s' :=
        hclosed.bind (hclosed.lower _) (fun _ => hclosed.bind (hclosed.constPort _) fun _ =>
          hclosed.bind (hclosed.add _ _ _) fun _ => hclosed.pure _) _ _ _ hafter
      obtain ⟨hwired', hgrows⟩ := hrest h₂
      exact ⟨hwired', (hsupplied₁.lower h₁ hnext).grow hgrows⟩
  | track channel setpoint within settle =>
      obtain ⟨hwired', hgrows⟩ := hclosed.lowerMotion (by simp) _ _ _ hrun hwired
      exact ⟨hwired', h.grow hgrows⟩
  | wait duration =>
      obtain ⟨hwired', hgrows⟩ := hclosed.lowerMotion (by simp) _ _ _ hrun hwired
      exact ⟨hwired', h.grow hgrows⟩

theorem lowerAction_supplied {a : Action α}
    (hwired : Wired program s) (h : Supplied Permitted pending s) {ports : ActionPorts}
    (hrun : lowerAction program a s = .ok ports s') :
    Wired program s' ∧ Supplied Permitted pending s' := by
  have hclosed := closed_steps program []
  induction a generalizing s s' ports with
  | basic name motion raises =>
      obtain ⟨_, _, _, _, s₁, s₂, hmotion, hregister, hraises, rfl⟩ := lowerAction_basic_eq_ok hrun
      obtain ⟨h₁, hsupplied₁⟩ := lowerMotion_supplied hwired h hmotion
      obtain ⟨h₂, hgrows₂⟩ := hclosed.registerCompleted _ _ _ _ _ hregister h₁
      obtain ⟨h₃, hgrows₃⟩ := hclosed.lowerRaises _ _ _ _ _ hraises h₂
      exact ⟨h₃, hsupplied₁.grow (hgrows₂.trans hgrows₃)⟩
  | wrapped name inner handled raises ih =>
      obtain ⟨_, _, _, _, s₁, s₂, s₃, hinner, hany, hregister, hraises, rfl⟩ :=
        lowerAction_wrapped_eq_ok hrun
      obtain ⟨h₁, hsupplied₁⟩ := ih hwired h hinner
      obtain ⟨h₂, hgrows₂⟩ := hclosed.anyOf _ _ _ _ hany h₁
      obtain ⟨h₃, hgrows₃⟩ := hclosed.registerCompleted _ _ _ _ _ hregister h₂
      obtain ⟨h₄, hgrows₄⟩ := hclosed.lowerRaises _ _ _ _ _ hraises h₃
      exact ⟨h₄, hsupplied₁.grow (hgrows₂.trans (hgrows₃.trans hgrows₄))⟩

/-- A source for ramps is collected, if there are any. -/
theorem Supplied.ramps {ids : List ExprId} {source : Source α}
    (hwired : Wired program s) (h : Supplied Permitted pending s)
    (hsource : Provided Permitted pending s source)
    (hrun : ids = [] ∧ s' = s ∨ Session.addResolver ⟨ids, source⟩ s = .ok () s') :
    Wired program s' ∧ Supplied Permitted pending s' := by
  rcases hrun with ⟨-, rfl⟩ | hresolver
  · exact ⟨hwired, h⟩
  · obtain ⟨hwired', -⟩ := (closed_steps program ids).addResolver _ (fun _ hid => hid) _ _ _
      hresolver hwired
    exact ⟨hwired', h.addResolver hsource hresolver⟩

theorem lowerCancelInput_supplied {c : Command α}
    (hwired : Wired program s) (h : Supplied Permitted pending s) (hscale : c.scale ∈ pending)
    (heffective : c.effective ∈ pending) {action : ActionPorts} {input : PortId}
    (hrun : lowerCancelInput program c s = .ok (action, input) s') :
    Wired program s' ∧ Supplied Permitted pending s' := by
  obtain ⟨s₁, s₂, s₃, haction, hresolver, hramps, hinput⟩ := lowerCancelInput_eq_ok hrun
  obtain ⟨h₁, hsupplied₁⟩ := lowerAction_supplied hwired h haction
  obtain ⟨h₂, -⟩ := (closed_steps program [c.scaleState]).addResolver _ (fun _ hid => hid) _ _ _
    hresolver h₁
  have hprovided : ∀ t e, e ∈ pending → Provided Permitted pending t (.expression e) :=
    fun _ _ he => Or.inr he
  have hsupplied₂ := hsupplied₁.addResolver (hprovided _ _ hscale) hresolver
  obtain ⟨h₃, hsupplied₃⟩ := hsupplied₂.ramps h₂ (hprovided _ _ heffective) hramps
  obtain ⟨h₄, hgrows₄⟩ := (closed_steps program []).lower _ _ _ _ hinput h₃
  exact ⟨h₄, hsupplied₃.grow hgrows₄⟩

/-- The scale and the override of a command are lowered in its last stage. -/
theorem lowerCancellation_supplied {c : Command α}
    (hwired : Wired program s) (h : Supplied Permitted (c.scale :: c.effective :: pending) s)
    {action result : ActionPorts} {handled : Handled}
    (hrun : lowerCancellation program c action handled s = .ok result s') :
    Supplied Permitted pending s' := by
  obtain ⟨ports, s₁, s₂, s₃, s₄, s₅, s₆, s₇, hany, hresolver, hscale, hstill, hstopped, hcancelled,
    heffective, hstores, rfl⟩ := lowerCancellation_eq_ok hrun
  have hclosed := closed_steps program []
  obtain ⟨h₁, hgrows₁⟩ := hclosed.anyOf _ _ _ _ hany hwired
  obtain ⟨h₂, -⟩ := (closed_steps program [c.cancel]).addResolver _ (fun _ hid => hid) _ _ _
    hresolver h₁
  have hport : Provided Permitted (c.scale :: c.effective :: pending) s₁ (.port ports.cancel) :=
    trivial
  have hsupplied₂ := (h.grow hgrows₁).addResolver hport hresolver
  obtain ⟨h₃, -⟩ := hclosed.lower _ _ _ _ hscale h₂
  have hsupplied₃ := hsupplied₂.lower h₂ hscale
  obtain ⟨h₄, hgrows₄⟩ := hclosed.constPort _ _ _ _ hstill h₃
  obtain ⟨h₅, hgrows₅⟩ := hclosed.add _ _ _ _ _ _ hstopped h₄
  obtain ⟨h₆, hgrows₆⟩ := hclosed.allOf _ _ _ _ hcancelled h₅
  obtain ⟨h₇, -⟩ := hclosed.lower _ _ _ _ heffective h₆
  have hsupplied₆ := hsupplied₃.grow (hgrows₄.trans (hgrows₅.trans hgrows₆))
  obtain ⟨-, hgrows₈⟩ := hclosed.storeEach _ _ _ _ hstores h₇
  exact (hsupplied₆.lower h₆ heffective).grow hgrows₈

/-- **The sources that a command collects** are lowered with it, and none of
them is a constant. -/
theorem lowerCommand_supplied {c : Command α}
    (hwired : Wired program s) (h : Supplied Permitted [] s) {ports : ActionPorts}
    (hrun : lowerCommand program c s = .ok ports s') : Supplied Permitted [] s' := by
  obtain ⟨action, input, handled, s₁, s₂, hinput, hhandlers, hcancellation⟩ :=
    lowerCommand_eq_ok hrun
  have hpending : Supplied Permitted [c.scale, c.effective] s := h.mono (by simp)
  obtain ⟨h₁, hsupplied₁⟩ :=
    lowerCancelInput_supplied hwired hpending (by simp) (by simp) hinput
  obtain ⟨h₂, hgrows₂⟩ :=
    (closed_steps program []).lowerHandlers _ _ _ _ _ _ hhandlers h₁
  exact lowerCancellation_supplied h₂ (hsupplied₁.grow hgrows₂) hcancellation

end Session

/-- The constants that placeholders of a target take their values from: the
ramps of an action outside of any command run at full speed. -/
def Target.Drives {α : Type} [Scalar α] : Target α → Value α → Prop
  | .action _, v => v = .double 1
  | _, _ => False

namespace Session

variable {α : Type} [Scalar α] {program : Program α}

/-- **The sources for the placeholders of a target** are lowered with it. -/
theorem lowerTarget_supplied {target : Target α}
    {result : PortId ⊕ ActionPorts} {s : Session α}
    (hrun : lowerTarget program target .empty = .ok result s) :
    Supplied target.Drives [] s := by
  have hempty : Supplied target.Drives [] (empty : Session α) := by
    intro id r hr
    cases hr
  have hwired : Wired program (empty : Session α) := wired_empty program
  cases target with
  | expr id =>
      have hsteps : Steps program [] .empty s := by
        have hclosed := closed_steps program []
        exact hclosed.bind (hclosed.lower _) (fun _ => hclosed.bind (hclosed.expose _ _) fun _ =>
          hclosed.pure _) _ _ _ hrun
      exact hempty.grow (hsteps hwired).2
  | action a =>
      have hfull : Provided (Target.action a).Drives [] (empty : Session α)
          (.constant (.double 1)) := rfl
      rw [lowerTarget] at hrun
      obtain ⟨t, hresolver, hafter⟩ := ramps_eq_ok hrun
      obtain ⟨ht, hsupplied⟩ := hempty.ramps hwired hfull hresolver
      obtain ⟨ports, s₁, haction, hafter⟩ := bind_eq_ok.mp hafter
      obtain ⟨-, rfl⟩ := pure_eq_ok.mp hafter
      exact (lowerAction_supplied ht hsupplied haction).2
  | command c =>
      obtain ⟨ports, s₁, hcommand, hafter⟩ := bind_eq_ok.mp hrun
      obtain ⟨-, rfl⟩ := pure_eq_ok.mp hafter
      exact lowerCommand_supplied hwired hempty hcommand

end Session

end SignalNet
