import Mathlib.Data.List.Chain
import Mathlib.Logic.Relation
import Mathlib.Order.WellFoundedSet
import SignalNet.Proofs.Net.Calls
import SignalNet.Proofs.Net.Settling

/-!
# Loops and evaluation orders

A fragment is a graph of blocks.  This module says which graphs have an
evaluation order, and what the order is.

* `Placement.runChecked` does what `Placement.run` does, but gives up where a
  counter would fall below zero.  It never gives up
  (`Placement.Tracks.runChecked`), and no block is left ready at the end
  (`Placement.run_ready`).
* `Fragment.Legal` is a list of all blocks in which every wire that constrains
  the order leads from an earlier block to a later one.  An evaluation order is
  legal (`Fragment.WellFormed.legal`), and a legal order rules out loops
  (`Fragment.Legal.acyclic`).
* In a fragment without loops no chain of wires goes on forever, because there
  are finitely many blocks (`Fragment.WellFormed.acc_of_acyclic`).
* `Fragment.evaluationOrder_correct` puts this together, and says what it means
  for validation: every loop of the whole graph passes through a delay.
-/

namespace SignalNet

/-! ### Counters -/

namespace Placement

variable {n : Nat} {edges : List Edge}

/-- Release a wire into block `b`, unless the counter of the block is zero or
missing. -/
def release? (s : Placement) (b : BlockId) : Option Placement :=
  match s.pending[b]? with
  | some (_ + 1) => some (s.release b)
  | _ => none

/-- Place the lowest block that is ready, if there is one, with checked
counters. -/
def placeChecked (edges : List Edge) (s : Placement) : Option Placement :=
  match s.ready with
  | [] => some s
  | b :: rest =>
    let targets := (edges.filter fun e => e.source == b).map (·.target)
    targets.foldlM release? { s with ready := rest, placed := b :: s.placed }

/-- Place at most `fuel` blocks with checked counters. -/
def runChecked (edges : List Edge) : (fuel : Nat) → Placement → Option Placement
  | 0, s => some s
  | fuel + 1, s => (s.placeChecked edges).bind (runChecked edges fuel)

/-- A wire that is owed has been counted. -/
theorem Tracks.release? {s : Placement} {b : BlockId} {owed : List BlockId}
    (h : Tracks n edges (b :: owed) s) (hb : b < n) : s.release? b = some (s.release b) := by
  have hcount : s.pending[b]? = some (waiting edges s.placed b + owed.count b + 1) := by
    rw [h.counts b hb, List.count_cons_self, Nat.add_assoc]
  simp [Placement.release?, hcount]

theorem Tracks.releaseAll? {s : Placement} {owed : List BlockId} (h : Tracks n edges owed s)
    (howed : ∀ b ∈ owed, b < n) :
    owed.foldlM Placement.release? s = some (owed.foldl release s) := by
  induction owed generalizing s with
  | nil => rfl
  | cons b rest ih =>
      rw [List.foldlM_cons, h.release? (howed b List.mem_cons_self)]
      exact ih (release_tracks h) fun c hc => howed c (List.mem_cons_of_mem _ hc)

/-- **No counter falls below zero.** -/
theorem Tracks.runChecked {s : Placement} (h : Tracks n edges [] s)
    (htargets : ∀ e ∈ edges, e.target < n) (fuel : Nat) :
    Placement.runChecked edges fuel s = some (run edges fuel s) := by
  induction fuel generalizing s with
  | zero => rfl
  | succ fuel ih =>
      rw [Placement.runChecked, run, placeChecked]
      cases hready : s.ready with
      | nil =>
          -- With no block ready, the rest of the run changes nothing.
          have hnone : s.place? edges = none := by simp [place?, hready]
          have hstays : ∀ fuel, run edges fuel s = s := by
            intro fuel
            cases fuel with
            | zero => rfl
            | succ fuel => rw [run, hnone]
          rw [hnone, Option.bind_some, ih h, hstays]
      | cons b rest =>
          have hplaced := h.place hready
          have howed : ∀ c ∈ (edges.filter fun e => e.source == b).map (·.target), c < n := by
            intro c hc
            obtain ⟨e, he, rfl⟩ := List.mem_map.mp hc
            exact htargets e (List.mem_filter.mp he).1
          dsimp only
          rw [hplaced.releaseAll? howed, Option.bind_some, ih (release_all_tracks hplaced), place?,
            hready]

/-- No block is left ready at the end. -/
theorem run_ready (n : Nat) (edges : List Edge) : (run edges n (start n edges)).ready = [] := by
  have htracks := run_tracks (start_tracks n edges) n
  have hstops := run_stops edges n (start n edges)
  generalize run edges n (start n edges) = s at htracks hstops
  have hlt : ∀ b ∈ s.ready ++ s.placed, b < n := by
    intro b hb
    have hzero := (htracks.settled b).mp hb
    rw [← htracks.length]
    exact (List.getElem?_eq_some_iff.mp hzero).1
  have hle : (s.ready ++ s.placed).length ≤ n := by
    have hsub := htracks.nodup.subperm fun b hb => List.mem_range.mpr (hlt b hb)
    simpa using hsub.length_le
  rcases hstops with hready | hlong
  · exact hready
  · rw [List.length_append] at hle
    exact List.eq_nil_of_length_eq_zero (by omega)

end Placement

namespace Fragment

variable {α : Type} {f : Fragment α}

/-! ### The graph of a fragment -/

/-- A connection leads from a port of the first block to a port of the
second. -/
def Leads (f : Fragment α) (a b : BlockId) : Prop :=
  ∃ c ∈ f.connections, ∃ s t, f.ports[c.source]? = some s ∧ f.ports[c.target]? = some t ∧
    s.block = a ∧ t.block = b

/-- The block is a delay. -/
def IsDelay (f : Fragment α) (b : BlockId) : Prop :=
  ∃ blk, f.blocks[b]? = some blk ∧ blk.primitive.isDelay = true

/-- No block comes back to itself. -/
def Acyclic (R : BlockId → BlockId → Prop) : Prop :=
  ∀ b, ¬ Relation.TransGen R b b

/-- A walk from block to block that ends where it began. -/
def Loop (f : Fragment α) (b : BlockId) (rest : List BlockId) : Prop :=
  List.IsChain f.Leads (b :: (rest ++ [b]))

/-- **The wires that constrain the order** are the connections into other blocks
than delays. -/
theorem WellFormed.feeds_iff (hf : f.WellFormed) {a b : BlockId} :
    f.Feeds a b ↔ f.Leads a b ∧ ¬ f.IsDelay b := by
  constructor
  · intro h
    obtain ⟨blk, input, source, port, hblk, hdelay, hinput, hsource, hport, rfl⟩ :=
      hf.feeds_cases h
    obtain ⟨i, hi⟩ := List.mem_iff_getElem?.mp hinput
    obtain ⟨kind, htarget⟩ := hf.inputs hblk hi
    refine ⟨⟨_, hf.producer?_eq_some_iff.mp hsource, port, _, hport, htarget, rfl, rfl⟩, ?_⟩
    rintro ⟨blk', hblk', hdelay'⟩
    rw [hblk] at hblk'
    cases hblk'
    rw [hdelay] at hdelay'
    cases hdelay'
  · rintro ⟨⟨c, hc, s, t, hs, ht, rfl, rfl⟩, hdelay⟩
    obtain ⟨blk, hblk, -⟩ := hf.owner ht
    refine List.mem_filterMap.mpr ⟨c, hc, ?_⟩
    have hfree : ¬ blk.primitive.isDelay = true := fun htrue => hdelay ⟨blk, hblk, htrue⟩
    simp [edge?, hs, ht, hblk, hfree]

/-- Wires run between blocks of the fragment. -/
theorem WellFormed.feeds_lt (hf : f.WellFormed) {a b : BlockId} (h : f.Feeds a b) :
    a < f.blocks.length ∧ b < f.blocks.length := by
  obtain ⟨blk, _, _, port, hblk, -, -, -, hport, rfl⟩ := hf.feeds_cases h
  obtain ⟨blk', hblk', -⟩ := hf.owner hport
  exact ⟨(List.getElem?_eq_some_iff.mp hblk').1, (List.getElem?_eq_some_iff.mp hblk).1⟩

/-- **Finitely many blocks without a loop**: no chain of wires goes on
forever. -/
theorem WellFormed.acc_of_acyclic (hf : f.WellFormed) (h : Acyclic f.Feeds) (b : BlockId) :
    Acc f.Feeds b := by
  have horder : IsStrictOrder BlockId (Relation.TransGen f.Feeds) :=
    { irrefl := h, trans := fun _ _ _ => Relation.TransGen.trans }
  have hfinite : (Set.Iio f.blocks.length).WellFoundedOn (Relation.TransGen f.Feeds) :=
    (Set.finite_Iio f.blocks.length).wellFoundedOn
  rw [Set.wellFoundedOn_iff] at hfinite
  refine Subrelation.accessible ?_ (hfinite.apply b)
  intro a c hac
  obtain ⟨ha, hc⟩ := hf.feeds_lt hac
  exact ⟨.single hac, ha, hc⟩

/-- A walk along wires that constrain the order is a walk along connections
that enters no delay. -/
theorem WellFormed.isChain_feeds (hf : f.WellFormed) {b : BlockId} {rest : List BlockId} :
    List.IsChain f.Feeds (b :: rest) ↔
      List.IsChain f.Leads (b :: rest) ∧ ∀ c ∈ rest, ¬ f.IsDelay c := by
  induction rest generalizing b with
  | nil => simp
  | cons c rest ih =>
      rw [List.isChain_cons_cons, List.isChain_cons_cons, ih, hf.feeds_iff, List.forall_mem_cons]
      tauto

/-- The graph of the constraining wires has no loops exactly if a delay breaks
every loop of the connections. -/
theorem WellFormed.acyclic_iff (hf : f.WellFormed) :
    Acyclic f.Feeds ↔ ∀ b rest, f.Loop b rest → ∃ c ∈ b :: rest, f.IsDelay c := by
  constructor
  · intro h b rest hloop
    by_contra hnone
    push Not at hnone
    have hchain : List.IsChain f.Feeds (b :: (rest ++ [b])) := by
      refine hf.isChain_feeds.mpr ⟨hloop, ?_⟩
      intro c hc
      refine hnone c ?_
      simpa [or_comm] using hc
    -- The first step of the walk, and a way back to where it began.
    cases hsteps : rest ++ [b] with
    | nil => simp at hsteps
    | cons c tail =>
        rw [hsteps] at hchain
        obtain ⟨hstep, hback⟩ := List.isChain_cons_cons.mp hchain
        have hlast : (c :: tail).getLast (List.cons_ne_nil c tail) = b := by
          simp only [← hsteps, List.getLast_concat]
        have hreturn := List.relationReflTransGen_of_exists_isChain_cons tail hback hlast
        exact h b (Relation.TransGen.head'_iff.mpr ⟨c, hstep, hreturn⟩)
  · intro h b hback
    obtain ⟨c, hreach, hstep⟩ := Relation.TransGen.tail'_iff.mp hback
    obtain ⟨walk, hwalk, hlast⟩ := List.exists_isChain_cons_of_relationReflTransGen hreach
    have hchain : List.IsChain f.Feeds (b :: (walk ++ [b])) := by
      rw [← List.cons_append]
      refine List.isChain_append.mpr ⟨hwalk, List.isChain_singleton b, ?_⟩
      intro x hx y hy
      rw [List.getLast?_eq_getLast_of_ne_nil (List.cons_ne_nil b walk), hlast] at hx
      cases hx
      cases hy
      exact hstep
    obtain ⟨hloop, hfree⟩ := hf.isChain_feeds.mp hchain
    obtain ⟨d, hd, hdelay⟩ := h b walk hloop
    refine hfree d ?_ hdelay
    simpa [or_comm] using hd

/-! ### Legal orders -/

/-- All blocks once, and every wire that constrains the order leads forward. -/
structure Legal (f : Fragment α) (order : List BlockId) : Prop where
  nodup : order.Nodup
  complete : ∀ b, b ∈ order ↔ b < f.blocks.length
  forward : ∀ {i j : Nat} {a b : BlockId}, order[i]? = some a → order[j]? = some b →
    f.Leads a b → ¬ f.IsDelay b → i < j

/-- **An evaluation order is legal.** -/
theorem WellFormed.legal (hf : f.WellFormed) {order : List BlockId}
    (h : f.evaluationOrder = .ok order) : f.Legal order := by
  have hschedule := schedules_of_evaluationOrder hf h
  refine ⟨hschedule.nodup, hschedule.complete, ?_⟩
  intro i j a b hi hj hleads hdelay
  obtain ⟨blk, input, source, port, hblk, hfree, hinput, hsource, hport, rfl⟩ :=
    hf.feeds_cases (hf.feeds_iff.mpr ⟨hleads, hdelay⟩)
  obtain ⟨hlt, rfl⟩ := List.getElem?_eq_some_iff.mp hj
  have hsplit : order = order.take j ++ order[j] :: order.drop (j + 1) := by
    rw [List.getElem_cons_drop, List.take_append_drop]
  have hbefore := hschedule.fed hsplit hblk hfree hinput hsource hport
  obtain ⟨k, hk, hat⟩ := List.mem_take_iff_getElem.mp hbefore
  -- No block is listed twice.
  have hsame : i = k := by
    have hilt := (List.getElem?_eq_some_iff.mp hi).1
    refine (List.getElem?_inj hilt hschedule.nodup).mp ?_
    rw [hi, ← hat]
    exact (List.getElem?_eq_getElem _).symm
  omega

/-- A fragment with a legal order has no loops. -/
theorem WellFormed.acyclic_of_legal (hf : f.WellFormed) {order : List BlockId}
    (h : f.Legal order) : Acyclic f.Feeds := by
  have hstep : ∀ {a b : BlockId}, f.Feeds a b → order.idxOf a < order.idxOf b := by
    intro a b hab
    obtain ⟨ha, hb⟩ := hf.feeds_lt hab
    obtain ⟨hleads, hdelay⟩ := hf.feeds_iff.mp hab
    exact h.forward (List.getElem?_idxOf ((h.complete a).mpr ha))
      (List.getElem?_idxOf ((h.complete b).mpr hb)) hleads hdelay
  have hwalk : ∀ {a b : BlockId}, Relation.TransGen f.Feeds a b →
      order.idxOf a < order.idxOf b := by
    intro a b hab
    induction hab with
    | single hlast => exact hstep hlast
    | tail _ hlast ih => exact Nat.lt_trans ih (hstep hlast)
  intro b hback
  exact Nat.lt_irrefl _ (hwalk hback)

/-- A fragment has an evaluation order exactly if it has no loops. -/
theorem WellFormed.evaluationOrder_iff (hf : f.WellFormed) :
    (∃ order, f.evaluationOrder = .ok order) ↔ Acyclic f.Feeds := by
  constructor
  · rintro ⟨order, horder⟩
    exact hf.acyclic_of_legal (hf.legal horder)
  · intro h
    exact hf.evaluationOrder_of_acc fun b _ => hf.acc_of_acyclic h b

/-- A fragment is valid exactly if all its inputs are fed and it has no
loops. -/
theorem WellFormed.validate_iff (hf : f.WellFormed) :
    f.validate = .ok () ↔
      (∀ q port, f.ports[q]? = some port → port.direction = .input →
        ∃ source, f.producer? q = some source) ∧ Acyclic f.Feeds := by
  constructor
  · intro h
    obtain ⟨horder, hopen⟩ := validate_eq_ok h
    exact ⟨fun q port => openInput?_eq_none hopen, hf.evaluationOrder_iff.mp horder⟩
  · rintro ⟨hfed, hacyclic⟩
    refine hf.validate_of_acc ?_ fun b _ => hf.acc_of_acyclic hacyclic b
    intro b blk hblk input hinput
    obtain ⟨i, hi⟩ := List.mem_iff_getElem?.mp hinput
    obtain ⟨kind, hport⟩ := hf.inputs hblk hi
    exact Option.isSome_iff_exists.mpr (hfed input _ hport rfl)

/-- The end of the ordering, with counters that are not checked. -/
def placement (f : Fragment α) : Placement :=
  Placement.run f.edges f.blocks.length (.start f.blocks.length f.edges)

/-! ### Main result -/

/-- **Evaluation orders are correct and complete.**  A fragment has an
evaluation order exactly if no loop of the wires into other blocks than delays
exists, and the order is legal.  With or without loops, no counter falls below
zero on the way and no block is left ready at the end.  So a fragment is valid
exactly if all inputs are fed and a delay breaks every loop of its
connections. -/
theorem evaluationOrder_correct {f : Fragment α} (hf : f.Reachable) :
    ((∃ order, f.evaluationOrder = .ok order) ↔
      Acyclic fun a b => f.Leads a b ∧ ¬ f.IsDelay b) ∧
    (∀ order, f.evaluationOrder = .ok order → f.Legal order) ∧
    Placement.runChecked f.edges f.blocks.length (.start f.blocks.length f.edges) =
      some f.placement ∧
    f.placement.ready = [] ∧
    (f.validate = .ok () ↔
      (∀ q port, f.ports[q]? = some port → port.direction = .input →
        ∃ source, f.producer? q = some source) ∧
      ∀ b rest, f.Loop b rest → ∃ c ∈ b :: rest, f.IsDelay c) := by
  have hwell := hf.wellFormed
  have hfeeds : f.Feeds = fun a b => f.Leads a b ∧ ¬ f.IsDelay b := by
    funext a b
    exact propext hwell.feeds_iff
  have htargets : ∀ e ∈ f.edges, e.target < f.blocks.length := fun e he =>
    (hwell.feeds_lt (a := e.source) (b := e.target) he).2
  refine ⟨?_, fun order => hwell.legal, ?_, Placement.run_ready _ _, ?_⟩
  · rw [← hfeeds]
    exact hwell.evaluationOrder_iff
  · exact (Placement.start_tracks _ _).runChecked htargets _
  · rw [← hwell.acyclic_iff]
    exact hwell.validate_iff

end Fragment

namespace Sample

/-- A counter with two wires from one block into another, a delay in its loop
and a delay that feeds itself. -/
def ringCalls : List (Fragment.Call Nat) :=
  [.addSource (.constant (.double 1)) .double,
    .addBlock (.binary .add) [.double, .double] (some .double),
    .addBlock (.pre (.double 0)) [.double] (some .double),
    .addBlock (.unary .neg) [.double] (some .double),
    .addBlock (.pre (.double 0)) [.double] (some .double),
    .connect 7 1, .connect 7 2, .connect 3 4, .connect 5 6, .connect 9 8]

/-- The counter. -/
def ring : Fragment Nat :=
  Fragment.performAll ringCalls .empty

end Sample

/-- The delays of the counter break its loops. -/
theorem Fragment.ring_ordered :
    Sample.ring.evaluationOrder = .ok [0, 2, 3, 1, 4] ∧ Sample.ring.Legal [0, 2, 3, 1, 4] ∧
      Sample.ring.validate = .ok () ∧
      ∀ b rest, Sample.ring.Loop b rest → ∃ c ∈ b :: rest, Sample.ring.IsDelay c := by
  obtain ⟨-, hlegal, -, -, hvalid⟩ := evaluationOrder_correct (f := Sample.ring) ⟨_, rfl⟩
  have horder : Sample.ring.evaluationOrder = .ok [0, 2, 3, 1, 4] := by decide +kernel
  have hok : Sample.ring.validate = .ok () := by decide +kernel
  exact ⟨horder, hlegal _ horder, hok, (hvalid.mp hok).2⟩

end SignalNet
