import Mathlib.Data.List.Perm.Subperm
import SignalNet.Net.Order
import SignalNet.Proofs.Net.Wiring

/-!
# Evaluation orders are schedules

A *schedule* of a fragment lists every block once, and every block but a delay
behind the blocks that feed it (`Fragment.Schedules`).  The counters of the
ordering are exact at every moment (`Placement.Tracks`): between two
placements a counter is the number of wires from blocks not placed, and while
the wires of the block just placed are being released it also counts the wires
still to be released.

* `Placement.release_tracks` releases one wire, `Placement.place?_tracks`
  places one block, and `Placement.run_tracks` follows a whole run.
* `Fragment.schedules_of_evaluationOrder`: an evaluation order is a schedule.
* `Fragment.validate_eq_ok`: a valid fragment has a schedule, and all its
  inputs are fed.
-/

namespace SignalNet

namespace Placement

variable {n : Nat} {edges : List Edge}

theorem mem_insertAscending {b c : BlockId} {xs : List BlockId} :
    c ∈ insertAscending b xs ↔ c = b ∨ c ∈ xs := by
  induction xs with
  | nil => simp [insertAscending]
  | cons x rest ih =>
      rw [insertAscending]
      by_cases hle : b ≤ x
      · simp [hle]
      · rw [if_neg hle, List.mem_cons, ih, List.mem_cons]
        tauto

theorem insertAscending_perm (b : BlockId) (xs : List BlockId) :
    (insertAscending b xs).Perm (b :: xs) := by
  induction xs with
  | nil => exact List.Perm.refl _
  | cons x rest ih =>
      rw [insertAscending]
      by_cases hle : b ≤ x
      · rw [if_pos hle]
      · rw [if_neg hle]
        exact (ih.cons x).trans (List.Perm.swap b x rest)

/-- The wires into a block from blocks that are not placed. -/
def waiting (edges : List Edge) (placed : List BlockId) (b : BlockId) : Nat :=
  edges.countP fun e => e.target == b && decide (e.source ∉ placed)

/-- The counters are exact, where `owed` lists the targets of the wires still
to be released; the blocks whose counter is zero are those that are ready or
placed; and what feeds a placed block was placed before it. -/
structure Tracks (n : Nat) (edges : List Edge) (owed : List BlockId) (s : Placement) : Prop where
  length : s.pending.length = n
  counts : ∀ b, b < n → s.pending[b]? = some (waiting edges s.placed b + owed.count b)
  settled : ∀ b, b ∈ s.ready ++ s.placed ↔ s.pending[b]? = some 0
  nodup : (s.ready ++ s.placed).Nodup
  legal : ∀ before b after, s.placed.reverse = before ++ b :: after →
    ∀ e ∈ edges, e.target = b → e.source ∈ before

theorem start_tracks (n : Nat) (edges : List Edge) : Tracks n edges [] (start n edges) where
  length := by simp [start]
  counts := by
    intro b hb
    simp [start, hb, waiting]
  settled := by
    intro b
    by_cases hb : b < n
    · simp [start, hb]
    · simp [start, hb]
  nodup := by
    simp only [start, List.append_nil]
    exact List.nodup_range.filter _
  legal := by
    intro before b after h
    simp [start] at h

/-- Releasing a wire pays for one that is owed. -/
theorem release_tracks {s : Placement} {b : BlockId} {owed : List BlockId}
    (h : Tracks n edges (b :: owed) s) : Tracks n edges owed (s.release b) := by
  have hself : b < n → s.pending[b]? = some (waiting edges s.placed b + owed.count b + 1) := by
    intro hb
    rw [h.counts b hb, List.count_cons_self, Nat.add_assoc]
  have hmodified : ∀ c, (s.release b).pending[c]? =
      if b = c then s.pending[c]?.map (· - 1) else s.pending[c]? := by
    intro c
    show (s.pending.modify b (· - 1))[c]? = _
    rw [List.getElem?_modify]
    by_cases hbc : b = c
    · simp [hbc]
    · simp [hbc]
  have hcounts : ∀ c, c < n →
      (s.release b).pending[c]? = some (waiting edges s.placed c + owed.count c) := by
    intro c hc
    rw [hmodified]
    by_cases hbc : b = c
    · subst hbc
      simp [hself hc]
    · rw [if_neg hbc, h.counts c hc, List.count_cons_of_ne hbc]
  -- The counter of `b` was positive, so `b` was neither ready nor placed.
  have hfresh : b ∉ s.ready ++ s.placed := by
    intro hmem
    have hzero := (h.settled b).mp hmem
    have hb : b < n := by
      rw [← h.length]
      exact (List.getElem?_eq_some_iff.mp hzero).1
    rw [hself hb] at hzero
    simp at hzero
  have hready : (s.release b).ready =
      if (s.release b).pending[b]? = some 0 then insertAscending b s.ready else s.ready := by
    simp only [release, beq_iff_eq]
  refine ⟨?_, hcounts, ?_, ?_, h.legal⟩
  · simp [release, h.length]
  · intro c
    show c ∈ (s.release b).ready ++ s.placed ↔ _
    by_cases hbc : b = c
    · subst hbc
      by_cases hzero : (s.release b).pending[b]? = some 0
      · rw [hready, if_pos hzero]
        simp [hzero, mem_insertAscending]
      · rw [hready, if_neg hzero]
        exact iff_of_false hfresh hzero
    · have hother : c ∈ (s.release b).ready ↔ c ∈ s.ready := by
        rw [hready]
        split
        · rw [mem_insertAscending]
          exact or_iff_right fun hcb => hbc hcb.symm
        · rfl
      rw [List.mem_append, hother, ← List.mem_append, h.settled, hmodified, if_neg hbc]
  · show ((s.release b).ready ++ s.placed).Nodup
    rw [hready]
    split
    · exact (((insertAscending_perm b s.ready).append_right s.placed).nodup_iff).mpr
        (List.nodup_cons.mpr ⟨hfresh, h.nodup⟩)
    · exact h.nodup

theorem release_all_tracks {s : Placement} {owed : List BlockId} (h : Tracks n edges owed s) :
    Tracks n edges [] (owed.foldl release s) := by
  induction owed generalizing s with
  | nil => exact h
  | cons b rest ih => exact ih (release_tracks h)

/-- Placing a block divides the wires from unplaced blocks into those from the
block and the others. -/
theorem waiting_cons {placed : List BlockId} {b : BlockId} (hb : b ∉ placed) (c : BlockId) :
    waiting edges placed c = waiting edges (b :: placed) c +
      ((edges.filter fun e => e.source == b).map (·.target)).count c := by
  unfold waiting
  induction edges with
  | nil => rfl
  | cons e rest ih =>
      have hfilter : ((e :: rest).filter fun e => e.source == b) =
          if e.source = b then e :: rest.filter fun e => e.source == b
          else rest.filter fun e => e.source == b := by
        by_cases hsource : e.source = b
        · simp [hsource]
        · simp [hsource]
      rw [List.countP_cons, List.countP_cons, ih, hfilter]
      by_cases hsource : e.source = b
      · by_cases htarget : e.target = c
        · simp [hsource, htarget, hb]
          omega
        · simp [hsource, htarget]
      · by_cases htarget : e.target = c
        · simp [hsource, htarget]
          omega
        · simp [hsource, htarget]

/-- The lowest block that is ready can be placed: its wires are then owed. -/
theorem Tracks.place {s : Placement} (h : Tracks n edges [] s) {b : BlockId}
    {rest : List BlockId} (hready : s.ready = b :: rest) :
    Tracks n edges ((edges.filter fun e => e.source == b).map (·.target))
      { s with ready := rest, placed := b :: s.placed } := by
  have hnodup : (b :: (rest ++ s.placed)).Nodup := by
    have hall := h.nodup
    rw [hready] at hall
    exact hall
  have hb : b ∉ s.placed := fun hmem =>
    (List.nodup_cons.mp hnodup).1 (List.mem_append_right _ hmem)
  have hzero : s.pending[b]? = some 0 := by
    rw [← h.settled, hready]
    simp
  refine ⟨h.length, ?_, ?_, ?_, ?_⟩
  · intro c hc
    have hcount := h.counts c hc
    rw [waiting_cons hb] at hcount
    simpa using hcount
  · intro c
    rw [← h.settled, hready]
    simp only [List.cons_append, List.mem_append, List.mem_cons]
    tauto
  · exact (List.perm_middle.nodup_iff).mpr hnodup
  · intro before c after hsplit e he htarget
    rw [List.reverse_cons] at hsplit
    rcases List.eq_nil_or_concat after with rfl | ⟨init, last, rfl⟩
    · -- The block just placed: none of its wires is waiting.
      obtain ⟨hbefore, hsingle⟩ := List.append_inj' hsplit rfl
      obtain rfl : b = c := by simpa using hsingle
      have hlt : b < n := by
        rw [← h.length]
        exact (List.getElem?_eq_some_iff.mp hzero).1
      have hcount := h.counts b hlt
      rw [hzero] at hcount
      have hnone : waiting edges s.placed b = 0 := by
        simpa using (Option.some.inj hcount).symm
      unfold waiting at hnone
      have hplaced := (List.countP_eq_zero.mp hnone) e he
      have hsource : e.source ∈ s.placed := by simpa [htarget] using hplaced
      rw [← hbefore]
      exact List.mem_reverse.mpr hsource
    · have hsplit' : s.placed.reverse ++ [b] = (before ++ c :: init) ++ [last] := by
        simpa using hsplit
      obtain ⟨hold, -⟩ := List.append_inj' hsplit' rfl
      exact h.legal before c init hold e he htarget

/-- Placing one block. -/
theorem place?_tracks {s next : Placement} (h : Tracks n edges [] s)
    (hplace : s.place? edges = some next) : Tracks n edges [] next := by
  unfold place? at hplace
  cases hready : s.ready with
  | nil => simp [hready] at hplace
  | cons b rest =>
      simp only [hready, Option.some.injEq] at hplace
      subst hplace
      exact release_all_tracks (h.place hready)

theorem run_tracks {s : Placement} (h : Tracks n edges [] s) (fuel : Nat) :
    Tracks n edges [] (run edges fuel s) := by
  induction fuel generalizing s with
  | zero => exact h
  | succ fuel ih =>
      rw [run]
      cases hplace : s.place? edges with
      | none => exact h
      | some next => exact ih (place?_tracks h hplace)

end Placement

namespace Fragment

variable {α : Type}

/-- In an order without repetitions no block stands in front of itself. -/
theorem not_mem_before {order before after : List BlockId} {b : BlockId} (hnodup : order.Nodup)
    (hsplit : order = before ++ b :: after) : b ∉ before := by
  rw [hsplit, List.nodup_middle] at hnodup
  exact fun hmem => (List.nodup_cons.mp hnodup).1 (List.mem_append_left _ hmem)

/-- A list of all blocks, each but the delays behind the blocks that feed
it. -/
structure Schedules (f : Fragment α) (order : List BlockId) : Prop where
  nodup : order.Nodup
  complete : ∀ b, b ∈ order ↔ b < f.blocks.length
  fed : ∀ {before : List BlockId} {b : BlockId} {after : List BlockId},
    order = before ++ b :: after → ∀ {blk : Block α}, f.blocks[b]? = some blk →
    blk.primitive.isDelay = false → ∀ {input source : PortId}, input ∈ blk.inputs →
    f.producer? input = some source → ∀ {port : Port}, f.ports[source]? = some port →
    port.block ∈ before

/-- A wire into a block that is no delay constrains the order. -/
theorem WellFormed.edge_mem {f : Fragment α} (hf : f.WellFormed) {b : BlockId} {blk : Block α}
    (hb : f.blocks[b]? = some blk) (hdelay : blk.primitive.isDelay = false)
    {input source : PortId} (hinput : input ∈ blk.inputs)
    (hsource : f.producer? input = some source) {port : Port}
    (hport : f.ports[source]? = some port) : ⟨port.block, b⟩ ∈ f.edges := by
  obtain ⟨i, hi⟩ := List.mem_iff_getElem?.mp hinput
  obtain ⟨kind, htarget⟩ := hf.inputs hb hi
  have hwire := hf.producer?_eq_some_iff.mp hsource
  refine List.mem_filterMap.mpr ⟨_, hwire, ?_⟩
  simp [edge?, hport, htarget, hb, hdelay]

/-- **An evaluation order is a schedule.** -/
theorem schedules_of_evaluationOrder {f : Fragment α} (hf : f.WellFormed) {order : List BlockId}
    (h : f.evaluationOrder = .ok order) : f.Schedules order := by
  have htracks := Placement.run_tracks (Placement.start_tracks f.blocks.length f.edges)
    f.blocks.length
  unfold evaluationOrder at h
  simp only at h
  generalize hs : Placement.run f.edges f.blocks.length
    (Placement.start f.blocks.length f.edges) = s at h htracks
  by_cases hlength : s.placed.reverse.length = f.blocks.length
  · rw [if_pos hlength] at h
    cases h
    have hnodup : s.placed.reverse.Nodup :=
      List.nodup_reverse.mpr (List.nodup_append.mp htracks.nodup).2.1
    have hlt : ∀ b ∈ s.placed.reverse, b < f.blocks.length := by
      intro b hb
      have hzero := (htracks.settled b).mp (List.mem_append_right _ (List.mem_reverse.mp hb))
      rw [← htracks.length]
      exact (List.getElem?_eq_some_iff.mp hzero).1
    have hperm : s.placed.reverse.Perm (List.range f.blocks.length) := by
      refine (hnodup.subperm fun b hb => List.mem_range.mpr (hlt b hb)).perm_of_length_le ?_
      simp only [List.length_range, hlength, Nat.le_refl]
    refine ⟨hnodup, ?_, ?_⟩
    · intro b
      rw [hperm.mem_iff, List.mem_range]
    · intro before b after hsplit blk hb hdelay input source hinput hsource port hport
      exact htracks.legal before b after hsplit _ (hf.edge_mem hb hdelay hinput hsource hport) rfl
  · rw [if_neg hlength] at h
    cases h

/-- An input that is not found open is fed. -/
theorem openInput?_eq_none {f : Fragment α} (h : f.openInput? = none) {q : Nat} {port : Port}
    (hq : f.ports[q]? = some port) (hinput : port.direction = .input) :
    ∃ source, f.producer? q = some source := by
  unfold openInput? at h
  have hnone := List.find?_eq_none.mp (Option.map_eq_none_iff.mp h) (port, q)
    (List.mem_zipIdx_iff_getElem?.mpr hq)
  have hconnected : f.isConnected q = true := by simpa [hinput] using hnone
  exact Option.isSome_iff_exists.mp hconnected

/-- A valid fragment has a schedule, and all inputs are fed. -/
theorem validate_eq_ok {f : Fragment α} {u : Unit} (h : f.validate = .ok u) :
    (∃ order, f.evaluationOrder = .ok order) ∧ f.openInput? = none := by
  unfold validate at h
  cases hopen : f.openInput? with
  | some port =>
      rw [hopen] at h
      cases hblock : f.block port.block <;> simp [hblock] at h
  | none =>
      rw [hopen] at h
      cases horder : f.evaluationOrder with
      | error e => simp [horder, Except.map] at h
      | ok order => exact ⟨⟨order, rfl⟩, rfl⟩

end Fragment

end SignalNet
