import SignalNet.Proofs.Net.Independence
import SignalNet.Proofs.Net.Priority

/-!
# Networks with a common part

Two networks that grew out of one fragment carry the same values in it, if the
blocks of the common part are fed alike: by ports of the common part, or by
constants with one value (`Fragment.Shares`).  What is outside of the common
part may read it, but does not disturb it.

The argument is the one for two evaluation orders, with ports that are alike in
the place of equal ports.  What the first network carries is an outlook on the
second one (`Simulator.Mirrors.outlook`), so a cycle of both leaves the common
part with the same values, memories and slots (`Simulator.Mirrors.step`), and so
does a run (`Fragment.Shares.drive`).  Slots need that sinks are part of what is
common and are visited in one order.  They are if the common part is fed by its
own ports only, because then it comes first in both evaluation orders
(`Fragment.Shares.writers`).
-/

namespace SignalNet

open Computing

variable {α : Type}

/-! ### The common part -/

namespace Fragment

/-- One output of the common part, or the ports of constants that have the same
permitted value. -/
inductive Alike (Permitted : Value α → Prop) (base f g : Fragment α) (p q : PortId) : Prop
  | common (hout : base.IsOutput p) (hsame : p = q)
  | constant {v : Value α} {kind kind' : Kind} (hv : Permitted v)
      (hp : f.Makes p (.constant v) [] kind) (hq : g.Makes q (.constant v) [] kind')

/-- Two fragments share a common part, and what feeds it is alike in both. -/
structure Shares (Permitted : Value α → Prop) (base f g : Fragment α) : Prop where
  wellFormed : base.WellFormed
  left : base.Extends f
  right : base.Extends g
  fed : ∀ {b : BlockId} {blk : Block α}, base.blocks[b]? = some blk → ∀ input ∈ blk.inputs,
    ∃ p q, f.producer? input = some p ∧ g.producer? input = some q ∧
      Alike Permitted base f g p q

variable {Permitted : Value α → Prop} {base f g : Fragment α}

/-- Sources in the one fragment are alike to sources in the other. -/
theorem Shares.sources (h : Shares Permitted base f g) {b : BlockId} {blk : Block α}
    (hblk : base.blocks[b]? = some blk) {inputs sources : List PortId}
    (hinputs : ∀ input ∈ inputs, input ∈ blk.inputs)
    (hfed : List.Forall₂ (fun input source => f.producer? input = some source) inputs sources) :
    ∃ sources', List.Forall₂ (fun input source => g.producer? input = some source) inputs
      sources' ∧ List.Forall₂ (Alike Permitted base f g) sources sources' := by
  induction hfed with
  | nil => exact ⟨[], .nil, .nil⟩
  | cons hsource _ ih =>
      obtain ⟨sources', hfed', halike⟩ :=
        ih fun input hinput => hinputs input (List.mem_cons_of_mem _ hinput)
      obtain ⟨p, q, hp, hq, hpq⟩ := h.fed hblk _ (hinputs _ List.mem_cons_self)
      rw [hsource] at hp
      cases hp
      exact ⟨q :: sources', .cons hq hfed', .cons hpq halike⟩

/-- A block of the common part puts out the same port in both fragments. -/
theorem Shares.produces (h : Shares Permitted base f g) {b : BlockId} {blk : Block α}
    (hblk : base.blocks[b]? = some blk) {q : PortId} {primitive : Primitive α}
    {sources : List PortId} {kind : Kind} {blk' : Block α}
    (hproduces : f.Produces q primitive sources kind b blk') :
    ∃ sources', g.Produces q primitive sources' kind b blk ∧
      List.Forall₂ (Alike Permitted base f g) sources sources' := by
  have hsame := h.left.block hblk
  rw [hproduces.block] at hsame
  cases hsame
  obtain ⟨kind', hport⟩ := h.wellFormed.output hblk hproduces.output
  have hkind := h.left.port hport
  rw [hproduces.port] at hkind
  cases hkind
  obtain ⟨sources', hfed, halike⟩ := h.sources hblk (fun _ hinput => hinput) hproduces.fed
  exact ⟨sources', ⟨h.right.block hblk, hproduces.primitive, hproduces.output,
    h.right.port hport, hfed⟩, halike⟩

/-! ### Evaluation orders -/

theorem Shares.symm (h : Shares Permitted base f g) : Shares Permitted base g f := by
  refine ⟨h.wellFormed, h.right, h.left, fun hblk input hinput => ?_⟩
  obtain ⟨p, q, hp, hq, hpq⟩ := h.fed hblk input hinput
  refine ⟨q, p, hq, hp, ?_⟩
  cases hpq with
  | common hout hsame => exact .common (hsame ▸ hout) hsame.symm
  | constant hv hp hq => exact .constant hv hq hp

/-- Without constants from elsewhere, the common part is fed by itself, in the
same way in both fragments. -/
theorem Shares.feeds (h : Shares (fun _ => False) base f g) (hf : f.WellFormed)
    (hg : g.WellFormed) {a b : BlockId} (hb : b < base.blocks.length) (hfeeds : f.Feeds a b) :
    a < base.blocks.length ∧ g.Feeds a b := by
  have hblk := List.getElem?_eq_getElem hb
  obtain ⟨blk, input, source, port, hblk', hfree, hinput, hsource, hport, rfl⟩ :=
    hf.feeds_cases hfeeds
  rw [h.left.block hblk] at hblk'
  cases hblk'
  obtain ⟨p, q, hp, hq, hpq⟩ := h.fed hblk input hinput
  rw [hsource] at hp
  cases hp
  cases hpq with
  | constant hv _ _ => exact hv.elim
  | common hout hsame =>
      subst hsame
      obtain ⟨c, blk', hc, hout⟩ := hout
      obtain ⟨kind, hown⟩ := h.wellFormed.output hc hout
      have hleft := h.left.port hown
      rw [hport] at hleft
      cases hleft
      exact ⟨(List.getElem?_eq_some_iff.mp hc).1,
        hg.edge_mem (h.right.block hblk) hfree hinput hq (h.right.port hown)⟩

theorem Shares.leading (h : Shares (fun _ => False) base f g) (hf : f.WellFormed)
    (hg : g.WellFormed) : f.Leading base.blocks.length :=
  ⟨h.left.blocks.length_le, fun _ _ hb hfeeds => (h.feeds hf hg hb hfeeds).1⟩

/-- **The sinks of the common part** are visited in the same order. -/
theorem Shares.writers (h : Shares (fun _ => False) base f g) (hf : f.WellFormed)
    (hg : g.WellFormed) {order order' : List BlockId} (horder : f.evaluationOrder = .ok order)
    (horder' : g.evaluationOrder = .ok order')
    (hsinks : ∀ b slot, f.Writes b slot → b < base.blocks.length)
    (hsinks' : ∀ b slot, g.Writes b slot → b < base.blocks.length) (slot : Nat) :
    order.filter (f.storesTo slot) = order'.filter (g.storesTo slot) := by
  have hleading := h.leading hf hg
  have hleading' := h.symm.leading hg hf
  rw [hleading.filter_eq hf horder fun b hb => hsinks b slot (storesTo_iff.mp hb),
    hleading'.filter_eq hg horder' fun b hb => hsinks' b slot (storesTo_iff.mp hb),
    hleading.take_eq hleading' hf hg horder horder' fun a b hb =>
      ⟨fun hfeeds => (h.feeds hf hg hb hfeeds).2, fun hfeeds => (h.symm.feeds hg hf hb hfeeds).2⟩]
  refine List.filter_congr fun b hb => ?_
  obtain ⟨i, hi, rfl⟩ := List.mem_take_iff_getElem.mp hb
  have hlt := hleading'.next_lt hg horder' (by omega) (i := i) (by omega)
  have hblk := List.getElem?_eq_getElem hlt
  unfold storesTo
  rw [h.left.block hblk, h.right.block hblk]

end Fragment

/-! ### Cycles -/

namespace Simulator

open Fragment (Alike Shares)

/-- Two simulators of networks with a common part, in surroundings that look
the same: the blocks of the common part remember the same.  Sinks are part of
what is common and are visited in one order. -/
structure Mirrors (Permitted : Value α → Prop) (base : Fragment α) (s t : Simulator α) : Prop where
  shares : Shares Permitted base s.fragment t.fragment
  around : s.around.Same t.around
  memories : ∀ b, b < base.blocks.length → s.memories.get? b = t.memories.get? b
  sinks : ∀ b slot, s.fragment.Writes b slot → b < base.blocks.length
  writers : ∀ slot, s.order.filter (s.fragment.storesTo slot) =
    t.order.filter (t.fragment.storesTo slot)

variable {Permitted : Value α → Prop} {base : Fragment α} {s s' t t' : Simulator α}

theorem Mirrors.feed (h : Mirrors Permitted base s t) (x : Stimulus α) :
    Mirrors Permitted base (s.feed x) (t.feed x) := by
  rw [feed_eq, feed_eq]
  exact ⟨h.shares, h.around.feed x, h.memories, h.sinks, h.writers⟩

variable [Scalar α]

/-- What the first network carries is an outlook on the second one. -/
theorem Mirrors.outlook (h : Mirrors Permitted base s t) (hs : Ready s) (hcycle : Cycle s s') :
    Outlook t fun q v => ∃ p, Alike Permitted base s.fragment t.fragment p q ∧
      s'.value? p = some v := by
  rintro q v ⟨p, halike, hv⟩
  cases halike with
  | constant _ hp hq =>
      obtain ⟨b, blk, hproduces⟩ := hq
      rw [hcycle.constant hs.wellFormed hp] at hv
      cases hv
      exact .reaction hproduces rfl .nil rfl
  | common hout hsame =>
      subst hsame
      obtain ⟨b, blk, hblk, hout⟩ := hout
      obtain ⟨w, hw, hforeseen⟩ := hcycle.foreseen hs.wellFormed (h.shares.left.block hblk) hout
      rw [hv] at hw
      cases hw
      have hmemory := h.memories b (List.getElem?_eq_some_iff.mp hblk).1
      -- The block of the port is the one of the common part.
      obtain ⟨kind, hport⟩ := h.shares.wellFormed.output hblk hout
      have hown := h.shares.left.port hport
      cases hforeseen with
      | delay hproduces hdelayed =>
          rw [hproduces.port] at hown
          cases hown
          obtain ⟨sources', hproduces', -⟩ := h.shares.produces hblk hproduces
          refine .delay hproduces' (hdelayed.trans ?_)
          rw [delayed, delayed, hmemory]
      | reaction hproduces hdelay hargs hreact =>
          rw [hproduces.port] at hown
          cases hown
          obtain ⟨sources', hproduces', halike⟩ := h.shares.produces hblk hproduces
          rw [h.around.react, hmemory] at hreact
          refine .reaction hproduces' hdelay ?_ hreact
          refine (forall₂_meet halike hargs).imp ?_
          rintro q v ⟨p, hpq, -, hp⟩
          exact ⟨p, hpq, hp⟩

/-- **A cycle of both**: ports that are alike carry the same. -/
theorem Mirrors.value (h : Mirrors Permitted base s t) (hs : Ready s) (ht : Ready t)
    (hstep : step s = .ok () s') (hstep' : step t = .ok () t') {p q : PortId}
    (hpq : Alike Permitted base s.fragment t.fragment p q) : s'.value? p = t'.value? q := by
  have hcycle := step_eq_ok hs.wellFormed hs.schedule hstep
  obtain ⟨v, hv⟩ : ∃ v, s'.value? p = some v := by
    cases hpq with
    | common hout _ =>
        obtain ⟨b, blk, hblk, hout⟩ := hout
        obtain ⟨v, hv, -⟩ := hcycle.foreseen hs.wellFormed (h.shares.left.block hblk) hout
        exact ⟨v, hv⟩
    | constant _ hp _ => exact ⟨_, hcycle.constant hs.wellFormed hp⟩
  rw [hv, (h.outlook hs hcycle).value ht.wellFormed ht.schedule ht.fed hstep' ⟨p, hpq, hv⟩]

/-- Blocks of the common part are fed the same. -/
theorem Mirrors.args_eq (h : Mirrors Permitted base s t) (hs : Ready s) (ht : Ready t)
    (hstep : step s = .ok () s') (hstep' : step t = .ok () t') {b : BlockId} {blk : Block α}
    (hblk : base.blocks[b]? = some blk) {args args' : List (Value α)}
    (hargs : Carries s.fragment s'.value? blk.inputs args)
    (hargs' : Carries t.fragment t'.value? blk.inputs args') : args = args' := by
  have hsame : Carries s.fragment s'.value? blk.inputs args' := by
    refine forall₂_imp_of_mem hargs' ?_
    rintro input hinput v ⟨q, hq, hv⟩
    obtain ⟨p, q', hp, hq', hpq⟩ := h.shares.fed hblk input hinput
    rw [hq] at hq'
    cases hq'
    exact ⟨p, hp, (h.value hs ht hstep hstep' hpq).trans hv⟩
  exact hargs.unique hsame

/-- **One cycle of two networks with a common part.** -/
theorem Mirrors.step (h : Mirrors Permitted base s t) (hs : Ready s) (ht : Ready t)
    (hstep : Simulator.step s = .ok () s') (hstep' : Simulator.step t = .ok () t') :
    Mirrors Permitted base s' t' := by
  have hcycle := step_eq_ok hs.wellFormed hs.schedule hstep
  have hcycle' := step_eq_ok ht.wellFormed ht.schedule hstep'
  refine ⟨?_, hcycle.same hcycle' h.around fun slot => ?_, fun b hb => ?_, ?_, ?_⟩
  · rw [hcycle.fragment, hcycle'.fragment]
    exact h.shares
  · refine (step_lastFill hs.wellFormed hs.schedule hstep slot).congr
      (step_lastFill ht.wellFormed ht.schedule hstep' slot) (by rw [h.writers slot])
      (h.around.slots slot) ?_
    intro b blk blk' v v' hwrites hblk hblk' hv hv'
    have hold := List.getElem?_eq_getElem (h.sinks b slot hwrites)
    have hleft := h.shares.left.block hold
    have hright := h.shares.right.block hold
    rw [hblk] at hleft
    rw [hblk'] at hright
    cases hleft
    cases hright
    cases h.args_eq hs ht hstep hstep' hold hv hv'
    rfl
  · have hblk := List.getElem?_eq_getElem hb
    refine (hcycle.blocks (h.shares.left.block hblk)).memory_congr
      (hcycle'.blocks (h.shares.right.block hblk)) h.around (h.memories b hb) ?_
      (h.args_eq hs ht hstep hstep' hblk)
    intro q hout
    obtain ⟨kind, hport⟩ := h.shares.wellFormed.output hblk hout
    rw [Fragment.kindOf_eq_ok.mpr ⟨_, h.shares.left.port hport, rfl⟩,
      Fragment.kindOf_eq_ok.mpr ⟨_, h.shares.right.port hport, rfl⟩]
  · rw [hcycle.fragment]
    exact h.sinks
  · rw [hcycle.fragment, hcycle.order, hcycle'.fragment, hcycle'.order]
    exact h.writers

/-! ### Runs -/

/-- **Runs of two networks with a common part.**  As long as the cycles of both
are completed, ports that are alike carry the same. -/
theorem Mirrors.drive (h : Mirrors Permitted base s t) (hs : Ready s) (ht : Ready t)
    (hvalues : ∀ p q, Alike Permitted base s.fragment t.fragment p q → s.value? p = t.value? q)
    {x : Nat → Stimulus α} {n : Nat} (hdrive : Simulator.drive x n s = .ok s')
    (hdrive' : Simulator.drive x n t = .ok t') :
    Mirrors Permitted base s' t' ∧ ∀ p q, Alike Permitted base s'.fragment t'.fragment p q →
      s'.value? p = t'.value? q := by
  have hrun : Mirrors Permitted base s' t' ∧ Ready s' ∧ Ready t' ∧
      ∀ p q, Alike Permitted base s'.fragment t'.fragment p q → s'.value? p = t'.value? q := by
    induction n generalizing s' t' with
    | zero =>
        cases hdrive
        cases hdrive'
        exact ⟨h, hs, ht, hvalues⟩
    | succ n ih =>
        obtain ⟨s₁, hbefore, hstep⟩ := drive_succ_eq_ok.mp hdrive
        obtain ⟨t₁, hbefore', hstep'⟩ := drive_succ_eq_ok.mp hdrive'
        obtain ⟨h₁, hs₁, ht₁, -⟩ := ih hbefore hbefore'
        have hfed := h₁.feed (x n)
        have hready := hs₁.feed (x n)
        have hready' := ht₁.feed (x n)
        have hcycle := step_eq_ok hready.wellFormed hready.schedule hstep
        have hcycle' := step_eq_ok hready'.wellFormed hready'.schedule hstep'
        refine ⟨hfed.step hready hready' hstep hstep', hcycle.ready hready,
          hcycle'.ready hready', fun p q hpq => ?_⟩
        rw [hcycle.fragment, hcycle'.fragment] at hpq
        exact hfed.value hready hready' hstep hstep' hpq
  exact ⟨hrun.1, hrun.2.2.2⟩

end Simulator

/-- **Networks with a common part**, started with the same period: while the
cycles of both are completed, ports that are alike carry the same, and slots
keep the same. -/
theorem Fragment.Shares.drive [Scalar α] {Permitted : Value α → Prop} {base f g : Fragment α}
    (h : Shares Permitted base f g) (hf : f.WellFormed) (hg : g.WellFormed) {period : α}
    {s₀ t₀ s t : Simulator α} (hstart : Simulator.start f period = .ok s₀)
    (hstart' : Simulator.start g period = .ok t₀)
    (hsinks : ∀ b slot, f.Writes b slot → b < base.blocks.length)
    (hwriters : ∀ slot, s₀.order.filter (f.storesTo slot) = t₀.order.filter (g.storesTo slot))
    {x : Nat → Stimulus α} {n : Nat} (hdrive : Simulator.drive x n s₀ = .ok s)
    (hdrive' : Simulator.drive x n t₀ = .ok t) :
    (∀ p q, Alike Permitted base f g p q → s.value? p = t.value? q) ∧
      ∀ slot, s.slot? slot = t.slot? slot := by
  obtain ⟨-, -, hs₀⟩ := Simulator.start_eq_ok hstart
  obtain ⟨-, -, ht₀⟩ := Simulator.start_eq_ok hstart'
  have hbegin : Simulator.Mirrors Permitted base s₀ t₀ := by
    rw [hs₀, ht₀]
    exact ⟨h, .refl _, fun _ _ => rfl, hsinks, hwriters⟩
  have hvalues : ∀ p q, s₀.value? p = t₀.value? q := by
    intro p q
    rw [hs₀, ht₀]
    rfl
  obtain ⟨hmirrors, hends⟩ := hbegin.drive (Simulator.start_ready hf hstart)
    (Simulator.start_ready hg hstart') (fun p q _ => hvalues p q) hdrive hdrive'
  obtain ⟨hfragment, -⟩ := Simulator.drive_keeps hf hstart hdrive
  obtain ⟨hfragment', -⟩ := Simulator.drive_keeps hg hstart' hdrive'
  rw [hfragment, hfragment'] at hends
  exact ⟨hends, hmirrors.around.slots⟩

end SignalNet
