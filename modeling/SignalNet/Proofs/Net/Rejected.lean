import SignalNet.Proofs.Net.Ledger
import SignalNet.Proofs.Net.Order

/-!
# Calls that are rejected

A builder call that fails has checked its arguments before it writes, so the
fragment is as it was.  There is one exception.  `addWired` looks up the kinds of
its sources before it adds the block, but not whether they are outputs: that is
found out by the first wire that starts at an input port, when block, ports and
the wires in front of it are in the books already.  The block stays behind
half-wired (`Fragment.HalfWired`), with an open input, and the fragment does not
pass validation any more.

* `Fragment.addWired_eq_error` and `Fragment.Call.run_eq_error` say so for
  fragments.
* On a ledger a rejected call writes nothing, or a block
  (`Ledger.perform_eq_error`).
* `Ledger.rejected_call_leaves` puts both together: what a rejected call leaves
  of all books, after every sequence of calls.
-/

namespace SignalNet

open Computing

namespace Fragment

variable {α : Type}

theorem ofExcept_eq_error {β : Type} {x : Except NetError β} {e : NetError} {f g : Fragment α}
    (h : Wiring.ofExcept x f = .error e g) : x = .error e ∧ g = f := by
  cases x with
  | ok b => cases h
  | error e' =>
      cases h
      exact ⟨rfl, rfl⟩

/-- Wiring that fails stops at a pair: those before it are connected, and that one
is refused. -/
theorem connectAll_eq_error {f g : Fragment α} {pairs : List (PortId × PortId)} {e : NetError}
    (h : connectAll pairs f = .error e g) :
    ∃ before source target after, pairs = before ++ (source, target) :: after ∧
      connectAll before f = .ok () g ∧ connect source target g = .error e g := by
  induction pairs generalizing f with
  | nil => cases h
  | cons pair rest ih =>
      obtain ⟨source, target⟩ := pair
      rcases bind_eq_error.mp h with hconnect | ⟨u, f', hconnect, hrest⟩
      · obtain rfl := connect_eq_error hconnect
        exact ⟨[], source, target, rest, rfl, rfl, hconnect⟩
      · obtain ⟨before, source', target', after, hsplit, hbefore, hrefused⟩ := ih hrest
        refine ⟨(source, target) :: before, source', target', after, ?_, ?_, hrefused⟩
        · rw [hsplit, List.cons_append]
        · rw [connectAll, bind_of_ok hconnect]
          exact hbefore

/-- Two ports of one kind, of which the second is an input without producer, are
only refused because the first one is no output. -/
theorem connect_eq_direction {f g : Fragment α} {source target : PortId} {s t : Port}
    {e : NetError} (hs : f.ports[source]? = some s) (ht : f.ports[target]? = some t)
    (hin : t.direction = .input) (hkind : s.kind = t.kind) (hfree : f.producer? target = none)
    (h : connect source target f = .error e g) :
    s.direction = .input ∧ e = .direction source target := by
  unfold connect Fragment.port at h
  simp only [hs, ht, hin, hkind, hfree] at h
  cases hout : s.direction with
  | output => simp [hout] at h
  | input =>
      simp only [hout] at h
      cases h
      exact ⟨rfl, rfl⟩

/-- What `addWired` leaves of a fragment when the first wire that cannot be made is
that from `source`: the new block is there with all its ports, and those in front
of the refused one are connected. -/
structure HalfWired (f g : Fragment α) (primitive : Primitive α) (kind : Kind)
    (before : List PortId) (source : PortId) (after : List PortId) (e : NetError) : Prop where
  wired : ∀ p ∈ before, ∃ port, f.ports[p]? = some port ∧ port.direction = .output
  refused : ∃ port, f.ports[source]? = some port ∧ port.direction = .input
  error : e = .direction source (f.ports.length + before.length)
  result : ∃ kinds, (before ++ source :: after).mapM f.kindOf = .ok kinds ∧
    Fits primitive kinds (some kind) ∧
    g = (f.withBlock primitive kinds (some kind)).withWires (wiresFrom f.ports.length before)
  invalid : g.validate ≠ .ok ()

section AddWired

variable {f g : Fragment α} {primitive : Primitive α} {inputs : List PortId} {kind : Kind}
  {kinds : List Kind} {e : NetError}

/-- The pairs of sources and new inputs, split at one of them. -/
theorem zip_range'_split {sources : List PortId} {first n : Nat}
    {pairs after : List (PortId × PortId)} {source target : PortId}
    (h : sources.zip (List.range' first n) = pairs ++ (source, target) :: after) :
    ∃ before rest, sources = before ++ source :: rest ∧ target = first + before.length ∧
      before.length < n ∧ pairs = before.zip (List.range' first before.length) := by
  obtain ⟨before, behind, targets, targets', hlength, hsources, htargets, rfl, hbehind⟩ :=
    List.zip_eq_append_iff.mp h
  obtain ⟨rest, _, rfl, rfl, -⟩ := List.zip_eq_cons_iff.mp hbehind.symm
  obtain ⟨k, hk, rfl, htarget⟩ := List.range'_eq_append_iff.mp htargets
  obtain ⟨rfl, hpos, -⟩ := List.range'_eq_cons_iff.mp htarget.symm
  rw [List.length_range'] at hlength
  subst hlength
  exact ⟨before, rest, hsources, by simp, by omega, rfl⟩

/-- Behind some wires of a new block, its next input is free. -/
theorem WellFormed.producer?_next (hf : f.WellFormed)
    (hg : ((f.withBlock primitive kinds (some kind)).withWires
      (wiresFrom f.ports.length inputs)).WellFormed) :
    ((f.withBlock primitive kinds (some kind)).withWires
      (wiresFrom f.ports.length inputs)).producer? (f.ports.length + inputs.length) = none := by
  rw [Option.eq_none_iff_forall_ne_some]
  intro source hsource
  rcases List.mem_append.mp (hg.producer?_eq_some_iff.mp hsource) with hold | hnew
  · obtain ⟨_, _, -, htarget, -⟩ := hf.wires _ hold
    have hlt := (List.getElem?_eq_some_iff.mp htarget).1
    exact absurd hlt (by simp)
  · obtain ⟨⟨s, t⟩, hpair, heq⟩ := List.mem_map.mp hnew
    have htarget : t = f.ports.length + inputs.length := congrArg Connection.target heq
    have hlt := (List.mem_range'_1.mp (List.of_mem_zip hpair).2).2
    exact absurd hlt (by simp [htarget])

/-- Every source of a new block has a port, of the kind that the block expects. -/
theorem sources_split {before after : List PortId} {source : PortId}
    (hkinds : (before ++ source :: after).mapM f.kindOf = .ok kinds) :
    (∀ p ∈ before, ∃ port, f.ports[p]? = some port) ∧
      ∃ port, f.ports[source]? = some port ∧ kinds[before.length]? = some port.kind := by
  have hall := mapM_ok_iff_forall₂.mp hkinds
  constructor
  · intro p hp
    obtain ⟨k, -, hk⟩ := forall₂_exists_of_mem hall (List.mem_append_left _ hp)
    obtain ⟨port, hport, -⟩ := kindOf_eq_ok.mp hk
    exact ⟨port, hport⟩
  · obtain ⟨hlength, hget⟩ := List.forall₂_iff_get.mp hall
    have hlt : before.length < (before ++ source :: after).length := by simp
    have hk := hget before.length hlt (hlength ▸ hlt)
    rw [List.get_eq_getElem, List.getElem_append_right (Nat.le_refl _)] at hk
    obtain ⟨port, hport, hkind⟩ := kindOf_eq_ok.mp hk
    simp only [Nat.sub_self, List.getElem_cons_zero] at hport
    refine ⟨port, hport, ?_⟩
    rw [hkind]
    exact List.getElem?_eq_getElem _

/-- A new block with an output has an output port, with or without wires. -/
theorem outputPort_wired (wires : List Connection) :
    ((f.withBlock primitive kinds (some kind)).withWires wires).outputPort f.blocks.length =
      .ok (f.ports.length + kinds.length) :=
  outputPort_eq_ok.mpr ⟨_, withBlock_block, rfl⟩

/-- **How a wire of a new block is refused.**  Its source is an input. -/
theorem halfWired {before after : List PortId} {source : PortId} (hf : f.WellFormed)
    (hkinds : (before ++ source :: after).mapM f.kindOf = .ok kinds)
    (hfits : Fits primitive kinds (some kind))
    (hg : g = (f.withBlock primitive kinds (some kind)).withWires
      (wiresFrom f.ports.length before))
    (hwell : g.WellFormed)
    (hrefused : connect source (f.ports.length + before.length) g = .error e g) :
    HalfWired f g primitive kind before source after e := by
  obtain ⟨hports, port, hsource, hkind⟩ := sources_split hkinds
  have hextends : f.Extends g := by
    rw [hg]
    exact withBlock_extends.trans (withWires_extends _ _)
  have htarget : g.ports[f.ports.length + before.length]? =
      some ⟨f.blocks.length, .input, port.kind, before.length⟩ := by
    rw [hg]
    show (f.withBlock primitive kinds (some kind)).ports[_]? = _
    exact withBlock_input hkind
  have hfree : g.producer? (f.ports.length + before.length) = none := by
    rw [hg] at hwell ⊢
    exact hf.producer?_next hwell
  obtain ⟨hin, herror⟩ :=
    connect_eq_direction (hextends.port hsource) htarget rfl rfl hfree hrefused
  refine ⟨fun p hp => ?_, ⟨port, hsource, hin⟩, herror, ⟨kinds, hkinds, hfits, hg⟩,
    fun hvalid => ?_⟩
  · -- The wires in front of the refused one have been made, so they start at outputs.
    obtain ⟨port', hport'⟩ := hports p hp
    obtain ⟨i, hi, rfl⟩ := List.mem_iff_getElem.mp hp
    have hwire : (⟨before[i], f.ports.length + i⟩ : Connection) ∈ g.connections := by
      rw [hg]
      refine List.mem_append_right _ (List.mem_map.mpr ⟨(before[i], f.ports.length + i), ?_, rfl⟩)
      exact List.mem_iff_getElem.mpr ⟨i, by simpa using hi, by simp⟩
    obtain ⟨s, t, hs, -, hout, -⟩ := hwell.wires _ hwire
    rw [hextends.port hport'] at hs
    cases hs
    exact ⟨port', hport', hout⟩
  · obtain ⟨-, hfed⟩ := validate_eq_ok hvalid
    obtain ⟨source', hproducer⟩ := openInput?_eq_none hfed htarget rfl
    rw [hfree] at hproducer
    cases hproducer

/-- **A fed block that is rejected** leaves the fragment as it is, or the block
stays behind half-wired. -/
theorem addWired_eq_error (hf : f.WellFormed) (h : addWired primitive inputs kind f = .error e g) :
    g = f ∨ ∃ before source after, inputs = before ++ source :: after ∧
      HalfWired f g primitive kind before source after e := by
  unfold addWired at h
  rw [get_bind] at h
  rcases bind_eq_error.mp h with hlookup | ⟨kinds, f₁, hlookup, h⟩
  · exact .inl (ofExcept_eq_error hlookup).2
  obtain ⟨hkinds, rfl⟩ := ofExcept_eq_ok.mp hlookup
  rcases bind_eq_error.mp h with hadd | ⟨id, f₁, hadd, h⟩
  · exact .inl (addBlock_eq_error hadd)
  obtain ⟨hfits, rfl, rfl⟩ := addBlock_eq_ok.mp hadd
  rw [get_bind, block_eq_ok.mpr withBlock_block] at h
  rcases bind_eq_error.mp h with hblock | ⟨blk, f₁, hblock, h⟩
  · cases (ofExcept_eq_error hblock).1
  obtain ⟨hblk, rfl⟩ := ofExcept_eq_ok.mp hblock
  cases hblk
  rcases bind_eq_error.mp h with hwires | ⟨u, f₁, hwires, h⟩
  · obtain ⟨pairs, source, target, behind, hsplit, hbefore, hrefused⟩ := connectAll_eq_error hwires
    obtain ⟨before, after, rfl, rfl, -, rfl⟩ := zip_range'_split hsplit
    obtain ⟨hwell, hresult⟩ := connectAll_eq_ok (hf.withBlock hfits) hbefore
    exact .inr ⟨before, source, after, rfl, halfWired hf hkinds hfits hresult hwell hrefused⟩
  · -- The new block has an output, so nothing is refused behind the last wire.
    obtain ⟨-, rfl⟩ := connectAll_eq_ok (hf.withBlock hfits) hwires
    rw [get_bind] at h
    cases (outputPort_wired _).symm.trans (ofExcept_eq_error h).1

/-- A source that is rejected leaves the fragment as it is. -/
theorem addSource_eq_error (h : addSource primitive kind f = .error e g) : g = f := by
  rcases bind_eq_error.mp h with hadd | ⟨id, f₁, hadd, h⟩
  · exact addBlock_eq_error hadd
  · obtain ⟨-, rfl, rfl⟩ := addBlock_eq_ok.mp hadd
    rw [get_bind, outputPort_eq_ok.mpr ⟨_, withBlock_block, rfl⟩] at h
    cases (ofExcept_eq_error h).1

end AddWired

/-- **What a rejected call leaves of a fragment.** -/
theorem Call.run_eq_error {f g : Fragment α} (hf : f.WellFormed) {c : Call α} {e : NetError}
    (h : c.run f = .error e g) :
    g = f ∨ ∃ primitive inputs kind before source after, c = .addWired primitive inputs kind ∧
      inputs = before ++ source :: after ∧ HalfWired f g primitive kind before source after e := by
  cases c with
  | addBlock primitive inputs output => exact .inl (addBlock_eq_error (discard_eq_error h))
  | addSource primitive kind => exact .inl (addSource_eq_error (discard_eq_error h))
  | addWired primitive inputs kind =>
      rcases addWired_eq_error hf (discard_eq_error h) with hsame |
        ⟨before, source, after, hsplit, hhalf⟩
      · exact .inl hsame
      · exact .inr ⟨primitive, inputs, kind, before, source, after, rfl, hsplit, hhalf⟩
  | connect source target => exact .inl (connect_eq_error h)
  | expose name q => exact .inl (expose_eq_error h)
  | register signal q => cases h

end Fragment

namespace Ledger

variable {α : Type} {l l' : Ledger α} {e : NetError}

/-! ### Rejected calls on a ledger -/

/-- A block that passes its checks makes the list of blocks longer; otherwise nothing
is written. -/
theorem addBlock_cases {primitive : Primitive α} {inputs : List Kind} {output : Option Kind} :
    (∃ e, addBlock primitive inputs output l = .error e l) ∨
      ∃ l₁, addBlock primitive inputs output l = .ok l.blocks.length l₁ ∧
        l₁.blocks.length = l.blocks.length + 1 := by
  by_cases harity : primitive.arity?.any (· ≠ inputs.length) = true
  · refine .inl ⟨.arity primitive.name (primitive.arity?.getD 0) inputs.length, ?_⟩
    unfold addBlock
    rw [if_pos harity]
    rfl
  by_cases hsink : primitive.isSink ≠ output.isNone
  · refine .inl ⟨.sinkOutput, ?_⟩
    unfold addBlock
    rw [if_neg harity, if_pos hsink]
    rfl
  exact .inr ⟨_, addBlock_apply l harity hsink, by simp⟩

/-- What follows on a new block, and leaves the list of blocks alone, leaves it
longer than before. -/
theorem addBlock_bind_eq_error {β : Type} {primitive : Primitive α} {inputs : List Kind}
    {output : Option Kind} {k : BlockId → Writing α β}
    (hk : ∀ b, Keeps (fun l l' => l'.blocks = l.blocks) (k b))
    (h : (addBlock primitive inputs output >>= k) l = .error e l') :
    l' = l ∨ l.blocks.length < l'.blocks.length := by
  rcases addBlock_cases (l := l) with ⟨e', hadd⟩ | ⟨l₁, hadd, hlength⟩
  · rw [bind_of_error hadd] at h
    cases h
    exact .inl rfl
  · rw [bind_of_ok hadd] at h
    have hkeeps := hk l.blocks.length l₁
    rw [h, finalState_error] at hkeeps
    refine .inr ?_
    rw [hkeeps, hlength]
    exact Nat.lt_succ_self _

theorem connect_eq_error {source target : PortId}
    (h : connect source target l = .error e l') : l' = l := by
  unfold connect at h
  split at h
  · cases h; rfl
  · cases h; rfl
  · split_ifs at h
    · cases h; rfl
    · cases h; rfl
    · split at h <;> cases h
      rfl

theorem expose_eq_error {name : String} {q : PortId} (h : expose name q l = .error e l') :
    l' = l := by
  unfold expose at h
  split at h
  · cases h; rfl
  · split_ifs at h
    · cases h; rfl
    · split at h
      · split_ifs at h
        cases h; rfl
      · cases h

theorem keepsBlocks_connect (source target : PortId) :
    Keeps (fun l l' => l'.blocks = l.blocks) (connect source target : Writing α Unit) := by
  intro l
  cases hconnect : connect source target l with
  | error e l' => rw [finalState_error, connect_eq_error hconnect]
  | ok u l' =>
      unfold connect at hconnect
      split at hconnect
      · cases hconnect
      · cases hconnect
      · split_ifs at hconnect
        split at hconnect <;> cases hconnect
        rfl

/-- A query writes nothing. -/
theorem keeps_ofExcept {β : Type} (x : Except NetError β) :
    Keeps (fun l l' => l' = l) (Writing.ofExcept x : Writing α β) := by
  cases x <;> exact fun _ => rfl

theorem keepsBlocks_ofExcept {β : Type} (x : Except NetError β) :
    Keeps (fun l l' => l'.blocks = l.blocks) (Writing.ofExcept x : Writing α β) :=
  fun l => congrArg blocks (keeps_ofExcept x l)

theorem keepsBlocks_connectAll (pairs : List (PortId × PortId)) :
    Keeps (fun l l' => l'.blocks = l.blocks) (connectAll pairs : Writing α Unit) := by
  induction pairs with
  | nil => exact fun _ => rfl
  | cons pair rest ih =>
      exact keeps_bind (fun _ _ _ h h' => h'.trans h) (keepsBlocks_connect pair.1 pair.2)
        fun _ => ih

/-- **A rejected call writes nothing, or a block.** -/
theorem perform_eq_error {c : Fragment.Call α} (h : perform c l = .error e l') :
    l' = l ∨ l.blocks.length < l'.blocks.length := by
  have htrans : ∀ l₁ l₂ l₃ : Ledger α, l₂.blocks = l₁.blocks → l₃.blocks = l₂.blocks →
      l₃.blocks = l₁.blocks := fun _ _ _ h h' => h'.trans h
  cases c with
  | addBlock primitive inputs output =>
      exact addBlock_bind_eq_error (k := fun _ => pure PUnit.unit) (fun _ _ => rfl) h
  | addSource primitive kind =>
      exact addBlock_bind_eq_error (fun _ => keeps_get_bind fun l => keepsBlocks_ofExcept _ l)
        (discard_eq_error h)
  | addWired primitive inputs kind =>
      have hwired := discard_eq_error h
      unfold addWired at hwired
      rw [get_bind] at hwired
      have hkeeps := keeps_ofExcept (inputs.mapM l.kindOf) l
      rcases bind_eq_error.mp hwired with hlookup | ⟨kinds, l₁, hlookup, hrest⟩
      · rw [hlookup] at hkeeps
        exact .inl hkeeps
      · rw [hlookup] at hkeeps
        obtain rfl : l₁ = l := hkeeps
        -- Behind the block there are queries and wires only.
        refine addBlock_bind_eq_error (fun id => ?_) hrest
        exact keeps_get_bind fun l => keeps_bind htrans (keepsBlocks_ofExcept _)
          (fun b => keeps_bind htrans (keepsBlocks_connectAll _)
            fun _ => keeps_get_bind fun l => keepsBlocks_ofExcept _ l) l
  | connect source target => exact .inl (connect_eq_error h)
  | expose name q => exact .inl (expose_eq_error h)
  | register signal q => cases h

/-- A call that is rejected on a ledger is rejected on the fragment that it
records, with the same error. -/
theorem rejected_alike {f : Fragment α} (hl : l.Records f) {c : Fragment.Call α}
    (h : perform c l = .error e l') : ∃ g, c.run f = .error e g ∧ l'.Records g := by
  have halike := perform_agrees c l f hl
  rw [h] at halike
  cases hrun : c.run f with
  | ok u g =>
      rw [hrun] at halike
      cases halike
  | error e' g =>
      rw [hrun] at halike
      cases halike with
      | error hrecords => exact ⟨g, rfl, hrecords⟩

/-- A rejected call after which a ledger records the same fragment has written
nothing. -/
theorem Records.eq_of_rejected {f : Fragment α} (hl : l.Records f) (hl' : l'.Records f)
    {c : Fragment.Call α} (h : perform c l = .error e l') : l' = l := by
  rcases perform_eq_error h with hsame | hlonger
  · exact hsame
  · rw [hl.length_blocks, hl'.length_blocks] at hlonger
    exact absurd hlonger (Nat.lt_irrefl _)

/-- The call feeds new blocks from outputs only. -/
def FromOutputs (l : Ledger α) : Fragment.Call α → Prop
  | .addWired _ inputs _ => ∀ p ∈ inputs, ∀ port, l.port p = .ok port → port.direction = .output
  | _ => True

/-- **What a rejected call leaves.**  After every sequence of calls, successful or
failing, a call that is rejected leaves all books as they are, unless it feeds a
new block from an input port.  Then the block stays behind half-wired. -/
theorem rejected_call_leaves (calls : List (Fragment.Call α)) (c : Fragment.Call α)
    (h : perform c (performAll calls empty) = .error e l') :
    (FromOutputs (performAll calls empty) c → l' = performAll calls empty) ∧
      (l' ≠ performAll calls empty → ∃ primitive kind before source after g,
        c = .addWired primitive (before ++ source :: after) kind ∧ l'.Records g ∧
          Fragment.HalfWired (Fragment.performAll calls .empty) g primitive kind before source
            after e) := by
  have hrecords := (performAll_consistent (α := α) calls).2
  generalize performAll calls empty = l at h hrecords ⊢
  have hwell : (Fragment.performAll calls (Fragment.empty : Fragment α)).WellFormed :=
    Fragment.performAll_wellFormed calls Fragment.wellFormed_empty
  generalize Fragment.performAll calls (Fragment.empty : Fragment α) = f at hrecords hwell ⊢
  obtain ⟨g, hg, hrecords'⟩ := rejected_alike hrecords h
  rcases Fragment.Call.run_eq_error hwell hg with rfl |
    ⟨primitive, _, kind, before, source, after, rfl, rfl, hhalf⟩
  · have hsame := hrecords.eq_of_rejected hrecords' h
    exact ⟨fun _ => hsame, fun hne => absurd hsame hne⟩
  · refine ⟨fun hout => ?_, fun _ => ⟨primitive, kind, before, source, after, g, rfl, hrecords',
      hhalf⟩⟩
    obtain ⟨port, hport, hin⟩ := hhalf.refused
    have hdirection := hout source (by simp) port (by
      rw [hrecords.port]
      exact Fragment.port_eq_ok.mpr hport)
    rw [hin] at hdirection
    cases hdirection

/-- An input, and a block that is fed by it. -/
def Sample.pair : List (Fragment.Call Float) :=
  [.addSource (.input "x") .boolean, .addWired .allOf [0] .boolean]

/-- The block has its wire already, and a second one is rejected without a trace. -/
theorem pair_leaves :
    perform (.connect 2 1) (performAll Sample.pair empty) =
        .error (.driven 1 0) (performAll Sample.pair empty) ∧
      ∀ e l', perform (.connect 2 1) (performAll Sample.pair empty) = .error e l' →
        l' = performAll Sample.pair empty :=
  ⟨rfl, fun _ _ h => (rejected_call_leaves Sample.pair (.connect 2 1) h).1 trivial⟩

/-- The second source of the third block is an input port.  The call fails, but the
block, its three ports and its first wire stay, and what was a valid fragment is
none any more. -/
theorem half_wired_block_stays :
    (∃ l', perform (.addWired .allOf [0, 1] .boolean) (performAll Sample.pair empty) =
        .error (.direction 1 4) l' ∧
      l'.blocks.length = 3 ∧ l'.ports.length = 6 ∧ l'.connections = [⟨0, 1⟩, ⟨0, 3⟩] ∧
      l'.producer? 3 = some 0) ∧
    (performAll Sample.pair empty).blocks.length = 2 ∧
    (performAll Sample.pair empty).ports.length = 3 ∧
    (performAll Sample.pair empty).connections = [⟨0, 1⟩] ∧
    (performAll Sample.pair empty).producer? 3 = none ∧
    (Fragment.performAll Sample.pair .empty).validate.isOk = true ∧
    (Fragment.performAll (Sample.pair ++ [.addWired .allOf [0, 1] .boolean])
      .empty).validate.isOk = false :=
  ⟨⟨_, rfl, by decide +kernel⟩, by decide +kernel⟩

end Ledger

end SignalNet
