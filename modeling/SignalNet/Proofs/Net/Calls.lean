import SignalNet.Proofs.Net.Wiring

/-!
# Fragments made by calls

`Fragment.Call` lists the calls that make a fragment.  Each of them only adds
to the fragment and leaves it well formed, also where it fails
(`Fragment.Maintains`), so `Fragment.Reachable` fragments are well formed.  Calls
that add and wire blocks leave the registry alone (`Fragment.Silent`).
-/

namespace SignalNet

open Computing

namespace Fragment

variable {α : Type}

/-- The calls on a fragment. -/
inductive Call (α : Type)
  | addBlock (primitive : Primitive α) (inputs : List Kind) (output : Option Kind)
  | addSource (primitive : Primitive α) (kind : Kind)
  | addWired (primitive : Primitive α) (inputs : List PortId) (output : Kind)
  | connect (source target : PortId)
  | expose (name : String) (port : PortId)
  | register (signal : Signal) (port : PortId)

/-- Make a call and forget its result. -/
def Call.run : Call α → Wiring α Unit
  | addBlock primitive inputs output => discard (Fragment.addBlock primitive inputs output)
  | addSource primitive kind => discard (Fragment.addSource primitive kind)
  | addWired primitive inputs output => discard (Fragment.addWired primitive inputs output)
  | connect source target => Fragment.connect source target
  | expose name port => Fragment.expose name port
  | register signal port => Fragment.register signal port

/-- The fragment after a sequence of calls, successful or not. -/
def performAll (calls : List (Call α)) (f : Fragment α) : Fragment α :=
  calls.foldl (fun f c => finalState (c.run f)) f

/-- A fragment to which calls lead from the empty one. -/
def Reachable (f : Fragment α) : Prop :=
  ∃ calls, performAll calls empty = f

/-- A computation only adds to a fragment and leaves a well-formed one well
formed, also where it stops. -/
abbrev Maintains {β : Type} (x : Wiring α β) : Prop :=
  Keeps (fun f g => f.Extends g ∧ (f.WellFormed → g.WellFormed)) x

theorem Maintains.bind {β γ : Type} {x : Wiring α β} {k : β → Wiring α γ} (hx : Maintains x)
    (hk : ∀ b, Maintains (k b)) : Maintains (x >>= k) := by
  refine keeps_bind ?_ hx hk
  rintro f g h ⟨hfg, hg⟩ ⟨hgh, hh⟩
  exact ⟨hfg.trans hgh, fun hf => hh (hg hf)⟩

theorem maintains_get : Maintains (get : Wiring α (Fragment α)) :=
  fun f => ⟨Extends.refl f, id⟩

theorem maintains_ofExcept {β : Type} (x : Except NetError β) :
    Maintains (Wiring.ofExcept x : Wiring α β) := by
  cases x with
  | ok b => exact fun f => ⟨Extends.refl f, id⟩
  | error e => exact fun f => ⟨Extends.refl f, id⟩

/-- A block that cannot be made leaves the fragment as it is. -/
theorem addBlock_eq_error {f g : Fragment α} {primitive : Primitive α} {inputs : List Kind}
    {output : Option Kind} {e : NetError} (h : addBlock primitive inputs output f = .error e g) :
    g = f := by
  unfold addBlock at h
  split_ifs at h <;> cases h <;> rfl

theorem maintains_addBlock (primitive : Primitive α) (inputs : List Kind)
    (output : Option Kind) : Maintains (addBlock primitive inputs output) := by
  intro f
  cases hadd : addBlock primitive inputs output f with
  | ok id g =>
      obtain ⟨hfits, -, rfl⟩ := addBlock_eq_ok.mp hadd
      exact ⟨withBlock_extends, fun hf => hf.withBlock hfits⟩
  | error e g =>
      obtain rfl := addBlock_eq_error hadd
      exact ⟨Extends.refl _, id⟩

/-- Ports that cannot be connected leave the fragment as it is. -/
theorem connect_eq_error {f g : Fragment α} {source target : PortId} {e : NetError}
    (h : connect source target f = .error e g) : g = f := by
  unfold connect at h
  split at h
  · cases h; rfl
  · cases h; rfl
  · split_ifs at h
    · cases h; rfl
    · cases h; rfl
    · split at h <;> cases h
      rfl

theorem maintains_connect (source target : PortId) :
    Maintains (connect source target : Wiring α Unit) := by
  intro f
  cases hconnect : connect source target f with
  | ok u g =>
      obtain ⟨hports, hfree, rfl⟩ := connect_eq_ok.mp hconnect
      exact ⟨withWires_extends f _, fun hf => hf.withWire hports hfree⟩
  | error e g =>
      obtain rfl := connect_eq_error hconnect
      exact ⟨Extends.refl _, id⟩

theorem maintains_connectAll (pairs : List (PortId × PortId)) :
    Maintains (connectAll pairs : Wiring α Unit) := by
  induction pairs with
  | nil => exact fun f => ⟨Extends.refl f, id⟩
  | cons pair rest ih => exact (maintains_connect pair.1 pair.2).bind fun _ => ih

theorem maintains_addSource (primitive : Primitive α) (kind : Kind) :
    Maintains (addSource primitive kind) :=
  (maintains_addBlock primitive [] (some kind)).bind fun _ =>
    maintains_get.bind fun _ => maintains_ofExcept _

/-- A block whose wires fail half-way keeps the wires it has. -/
theorem maintains_addWired (primitive : Primitive α) (inputs : List PortId) (output : Kind) :
    Maintains (addWired primitive inputs output) :=
  maintains_get.bind fun _ => (maintains_ofExcept _).bind fun kinds =>
    (maintains_addBlock primitive kinds (some output)).bind fun _ =>
      maintains_get.bind fun _ => (maintains_ofExcept _).bind fun _ =>
        (maintains_connectAll _).bind fun _ => maintains_get.bind fun _ => maintains_ofExcept _

/-- A name that cannot be given leaves the fragment as it is. -/
theorem expose_eq_error {f g : Fragment α} {name : String} {q : PortId} {e : NetError}
    (h : expose name q f = .error e g) : g = f := by
  unfold expose at h
  split at h
  · cases h; rfl
  · split_ifs at h
    · cases h; rfl
    · split at h
      · split_ifs at h
        cases h; rfl
      · cases h

theorem maintains_expose (name : String) (q : PortId) :
    Maintains (expose name q : Wiring α Unit) := by
  intro f
  cases hexpose : expose name q f with
  | ok u g =>
      obtain ⟨-, hextends, -, hwell, -⟩ := expose_eq_ok hexpose
      exact ⟨hextends, hwell⟩
  | error e g =>
      obtain rfl := expose_eq_error hexpose
      exact ⟨Extends.refl _, id⟩

/-! ### The registry -/

/-- A computation leaves the registry alone, also where it stops. -/
abbrev Silent {β : Type} (x : Wiring α β) : Prop :=
  Keeps (fun f g => g.signals = f.signals) x

theorem Silent.bind {β γ : Type} {x : Wiring α β} {k : β → Wiring α γ} (hx : Silent x)
    (hk : ∀ b, Silent (k b)) : Silent (x >>= k) := by
  refine keeps_bind ?_ hx hk
  intro f g h hfg hgh
  exact hgh.trans hfg

theorem silent_get : Silent (get : Wiring α (Fragment α)) :=
  fun _ => rfl

theorem silent_ofExcept {β : Type} (x : Except NetError β) :
    Silent (Wiring.ofExcept x : Wiring α β) := by
  cases x with
  | ok b => exact fun _ => rfl
  | error e => exact fun _ => rfl

theorem silent_addBlock (primitive : Primitive α) (inputs : List Kind) (output : Option Kind) :
    Silent (addBlock primitive inputs output) := by
  intro f
  unfold addBlock
  split_ifs <;> rfl

theorem silent_connect (source target : PortId) :
    Silent (connect source target : Wiring α Unit) := by
  intro f
  unfold connect
  split
  · rfl
  · rfl
  · split_ifs
    · rfl
    · rfl
    · split <;> rfl

theorem silent_connectAll (pairs : List (PortId × PortId)) :
    Silent (connectAll pairs : Wiring α Unit) := by
  induction pairs with
  | nil => exact fun _ => rfl
  | cons pair rest ih => exact (silent_connect pair.1 pair.2).bind fun _ => ih

theorem silent_addSource (primitive : Primitive α) (kind : Kind) :
    Silent (addSource primitive kind) :=
  (silent_addBlock primitive [] (some kind)).bind fun _ =>
    silent_get.bind fun _ => silent_ofExcept _

theorem silent_addWired (primitive : Primitive α) (inputs : List PortId) (output : Kind) :
    Silent (addWired primitive inputs output) :=
  silent_get.bind fun _ => (silent_ofExcept _).bind fun kinds =>
    (silent_addBlock primitive kinds (some output)).bind fun _ =>
      silent_get.bind fun _ => (silent_ofExcept _).bind fun _ =>
        (silent_connectAll _).bind fun _ => silent_get.bind fun _ => silent_ofExcept _

/-! ### All calls -/

theorem Call.run_maintains (c : Call α) : Maintains c.run := by
  have hdiscard : ∀ {β : Type} {x : Wiring α β}, Maintains x → Maintains (discard x) :=
    fun hx => hx.bind fun _ f => ⟨Extends.refl f, id⟩
  cases c with
  | addBlock primitive inputs output => exact hdiscard (maintains_addBlock primitive inputs output)
  | addSource primitive kind => exact hdiscard (maintains_addSource primitive kind)
  | addWired primitive inputs output => exact hdiscard (maintains_addWired primitive inputs output)
  | connect source target => exact maintains_connect source target
  | expose name q => exact maintains_expose name q
  | register signal q => exact fun f => ⟨withSignals_extends f _, fun hf => hf.withSignals _⟩

theorem performAll_wellFormed (calls : List (Call α)) {f : Fragment α} (hf : f.WellFormed) :
    (performAll calls f).WellFormed := by
  induction calls generalizing f with
  | nil => exact hf
  | cons c rest ih => exact ih ((c.run_maintains f).2 hf)

/-- **What calls make is well formed.** -/
theorem Reachable.wellFormed {f : Fragment α} (h : f.Reachable) : f.WellFormed := by
  obtain ⟨calls, rfl⟩ := h
  exact performAll_wellFormed calls wellFormed_empty

end Fragment

end SignalNet
