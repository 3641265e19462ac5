import SignalNet.Proofs.Net.Order

/-!
# Fragments without loops

A port *settles* in a cycle (`Fragment.Settles`) if its value is determined by
delays, which repeat the previous cycle, and by ports that are given: what lies
in between is a tree of blocks.  Where all ports settle from delays alone no
block waits for itself, and this is all that the ordering of blocks needs.

* `Placement.run_complete`: if the wires between blocks are well-founded, the
  ordering places every block.
* `Fragment.Settles.subst`: a port that settles from given ports settles if they
  do.
* `Fragment.validate_of_acc`: a fragment is valid if all inputs are fed and
  no block waits for itself.
-/

namespace SignalNet

namespace Placement

variable {n : Nat} {edges : List Edge}

theorem foldl_release_placed (targets : List BlockId) (s : Placement) :
    (targets.foldl release s).placed = s.placed := by
  induction targets generalizing s with
  | nil => rfl
  | cons b rest ih => exact ih (s.release b)

/-- Placing a block makes the list of placed blocks longer by one. -/
theorem place?_placed {s next : Placement} (h : s.place? edges = some next) :
    next.placed.length = s.placed.length + 1 := by
  unfold place? at h
  cases hready : s.ready with
  | nil => simp [hready] at h
  | cons b rest =>
      simp only [hready, Option.some.injEq] at h
      rw [← h, foldl_release_placed]
      rfl

theorem place?_eq_none {s : Placement} (h : s.place? edges = none) : s.ready = [] := by
  unfold place? at h
  cases hready : s.ready with
  | nil => rfl
  | cons b rest => simp [hready] at h

/-- A run ends with no block ready, or it has placed a block for each unit of
fuel. -/
theorem run_stops (edges : List Edge) (fuel : Nat) (s : Placement) :
    (run edges fuel s).ready = [] ∨ s.placed.length + fuel ≤ (run edges fuel s).placed.length := by
  induction fuel generalizing s with
  | zero => exact Or.inr (Nat.le_refl _)
  | succ fuel ih =>
      rw [run]
      cases hplace : s.place? edges with
      | none => exact Or.inl (place?_eq_none hplace)
      | some next =>
          have hlength := place?_placed hplace
          rcases ih next with hready | hlong
          · exact Or.inl hready
          · refine Or.inr (Nat.le_trans ?_ hlong)
            omega

/-- With no block ready, a block is placed if no chain of wires into it goes on
forever. -/
theorem Tracks.placed_of_acc {s : Placement} (h : Tracks n edges [] s) (hready : s.ready = [])
    (hsources : ∀ e ∈ edges, e.source < n) {b : BlockId}
    (hacc : Acc (fun a b => ⟨a, b⟩ ∈ edges) b) (hb : b < n) : b ∈ s.placed := by
  induction hacc with
  | intro b _ ih =>
      -- All that feeds the block is placed, so its counter is zero.
      have hnone : waiting edges s.placed b = 0 := by
        refine List.countP_eq_zero.mpr ?_
        intro e he
        by_cases htarget : e.target = b
        · have hedge : (⟨e.source, b⟩ : Edge) ∈ edges := by rwa [← htarget]
          have hplaced := ih e.source hedge (hsources e he)
          simp [hplaced]
        · simp [htarget]
      have hzero : s.pending[b]? = some 0 := by
        rw [h.counts b hb, hnone]
        rfl
      have hmem := (h.settled b).mpr hzero
      rwa [hready] at hmem

/-- **The ordering is complete**: it places every block if no chain of wires
goes on forever. -/
theorem run_complete (hsources : ∀ e ∈ edges, e.source < n)
    (hacc : ∀ b, b < n → Acc (fun a b => ⟨a, b⟩ ∈ edges) b) :
    (run edges n (start n edges)).placed.length = n := by
  have htracks := run_tracks (start_tracks n edges) n
  generalize hs : run edges n (start n edges) = s at htracks
  have hnodup : s.placed.Nodup := (List.nodup_append.mp htracks.nodup).2.1
  have hlt : ∀ b ∈ s.placed, b < n := by
    intro b hb
    have hzero := (htracks.settled b).mp (List.mem_append_right _ hb)
    rw [← htracks.length]
    exact (List.getElem?_eq_some_iff.mp hzero).1
  have hle : s.placed.length ≤ n := by
    have hsub := hnodup.subperm fun b hb => List.mem_range.mpr (hlt b hb)
    simpa using hsub.length_le
  have hstops := run_stops edges n (start n edges)
  rw [hs] at hstops
  rcases hstops with hready | hlong
  · have hall : (List.range n).Subperm s.placed := by
      refine List.nodup_range.subperm fun b hb => ?_
      have hb' := List.mem_range.mp hb
      exact htracks.placed_of_acc hready hsources (hacc b hb') hb'
    have hge : n ≤ s.placed.length := by simpa using hall.length_le
    omega
  · have hstart : (start n edges).placed.length = 0 := rfl
    omega

end Placement

namespace Fragment

variable {α : Type} {f g : Fragment α}

/-! ### Valid fragments -/

/-- One block must be evaluated before the other. -/
def Feeds (f : Fragment α) (a b : BlockId) : Prop :=
  ⟨a, b⟩ ∈ f.edges

/-- What a wire that constrains the order is. -/
theorem WellFormed.feeds_cases (hf : f.WellFormed) {a b : BlockId} (h : f.Feeds a b) :
    ∃ blk input source port, f.blocks[b]? = some blk ∧ blk.primitive.isDelay = false ∧
      input ∈ blk.inputs ∧ f.producer? input = some source ∧ f.ports[source]? = some port ∧
      port.block = a := by
  obtain ⟨c, hc, hedge⟩ := List.mem_filterMap.mp h
  obtain ⟨s, t, hs, ht, -, hinput, -⟩ := hf.wires c hc
  obtain ⟨blk, hblk, howner, -⟩ := hf.owner ht
  simp only [edge?, hs, ht, hblk, Option.bind_eq_bind, Option.bind_some] at hedge
  by_cases hdelay : blk.primitive.isDelay = true
  · simp [hdelay] at hedge
  · simp only [if_neg hdelay, Option.some.injEq, Edge.mk.injEq] at hedge
    obtain ⟨rfl, rfl⟩ := hedge
    exact ⟨blk, c.target, c.source, s, hblk, by simpa using hdelay,
      List.mem_of_getElem? (howner hinput), hf.producer?_eq_some_iff.mpr hc, hs, rfl⟩

/-- Fragments without loops have an evaluation order. -/
theorem WellFormed.evaluationOrder_of_acc (hf : f.WellFormed)
    (h : ∀ b, b < f.blocks.length → Acc f.Feeds b) : ∃ order, f.evaluationOrder = .ok order := by
  have hsources : ∀ e ∈ f.edges, e.source < f.blocks.length := by
    intro e he
    obtain ⟨_, _, _, port, -, -, -, -, hport, hblock⟩ :=
      hf.feeds_cases (a := e.source) (b := e.target) he
    obtain ⟨blk, hblk, -⟩ := hf.owner hport
    exact hblock ▸ (List.getElem?_eq_some_iff.mp hblk).1
  have hcomplete := Placement.run_complete hsources h
  unfold evaluationOrder
  simp only [List.length_reverse, hcomplete, if_true]
  exact ⟨_, rfl⟩

/-- **A fragment is valid** if all its inputs are fed and no block waits for
itself. -/
theorem WellFormed.validate_of_acc (hf : f.WellFormed)
    (hfed : ∀ {b : BlockId} {blk : Block α}, f.blocks[b]? = some blk → ∀ input ∈ blk.inputs,
      (f.producer? input).isSome) (hacc : ∀ b, b < f.blocks.length → Acc f.Feeds b) :
    f.validate = .ok () := by
  have hopen : f.openInput? = none := by
    refine Option.map_eq_none_iff.mpr (List.find?_eq_none.mpr ?_)
    rintro ⟨port, q⟩ hmem hfree
    have hport := List.mem_zipIdx_iff_getElem?.mp hmem
    simp only [Bool.and_eq_true, beq_iff_eq, Bool.not_eq_true'] at hfree
    obtain ⟨hinput, hunfed⟩ := hfree
    obtain ⟨blk, hblk, howner, -⟩ := hf.owner hport
    have hsome := hfed hblk q (List.mem_of_getElem? (howner hinput))
    rw [isConnected] at hunfed
    rw [hsome] at hunfed
    cases hunfed
  obtain ⟨order, horder⟩ := hf.evaluationOrder_of_acc hacc
  simp [validate, hopen, horder, Except.map]

/-! ### Ports that settle -/

/-- The value of a port in a cycle is determined by delays and by given ports. -/
inductive Settles (f : Fragment α) (Given : PortId → Prop) : PortId → Prop
  | given {q : PortId} (h : Given q) : Settles f Given q
  | delay {q : PortId} {primitive : Primitive α} {sources : List PortId} {kind : Kind}
      (hmakes : f.Makes q primitive sources kind) (hdelay : primitive.isDelay = true) :
      Settles f Given q
  | block {q : PortId} {primitive : Primitive α} {sources : List PortId} {kind : Kind}
      (hmakes : f.Makes q primitive sources kind)
      (hsources : ∀ source ∈ sources, Settles f Given source) : Settles f Given q

variable {Given Given' : PortId → Prop} {q : PortId}

/-- Ports of a larger fragment settle as they did. -/
theorem Settles.extend (h : f.Settles Given q) (hg : f.Extends g)
    (hgiven : ∀ q, Given q → Given' q) : g.Settles Given' q := by
  induction h with
  | given h => exact .given (hgiven _ h)
  | delay hmakes hdelay => exact .delay (hmakes.extend hg) hdelay
  | block hmakes _ ih => exact .block (hmakes.extend hg) ih

/-- **Substitution.**  Ports that settle themselves need not be given. -/
theorem Settles.subst (h : f.Settles Given q) (hgiven : ∀ q, Given q → f.Settles Given' q) :
    f.Settles Given' q := by
  induction h with
  | given h => exact hgiven _ h
  | delay hmakes hdelay => exact .delay hmakes hdelay
  | block hmakes _ ih => exact .block hmakes ih

/-- **No block waits for itself** if its output settles from delays alone. -/
theorem Settles.acc (hf : f.WellFormed) (h : f.Settles (fun _ => False) q) {port : Port}
    (hport : f.ports[q]? = some port) : Acc f.Feeds port.block := by
  induction h generalizing port with
  | given h => exact h.elim
  | delay hmakes hdelay =>
      obtain ⟨b, blk, hproduces⟩ := hmakes
      rw [hproduces.port] at hport
      cases hport
      -- No wire into a delay constrains the order.
      refine Acc.intro _ fun a ha => ?_
      obtain ⟨blk', _, _, _, hblk', hnow, -⟩ := hf.feeds_cases ha
      rw [hproduces.block] at hblk'
      cases hblk'
      rw [hproduces.primitive, hdelay] at hnow
      cases hnow
  | block hmakes _ ih =>
      obtain ⟨b, blk, hproduces⟩ := hmakes
      rw [hproduces.port] at hport
      cases hport
      refine Acc.intro _ fun a ha => ?_
      obtain ⟨blk', input, source, p, hblk', -, hinput, hsource, hp, rfl⟩ := hf.feeds_cases ha
      rw [hproduces.block] at hblk'
      cases hblk'
      obtain ⟨source', hmem, hsource'⟩ := Computing.forall₂_exists_of_mem hproduces.fed hinput
      rw [hsource] at hsource'
      cases hsource'
      exact ih source hmem hp

end Fragment

end SignalNet
