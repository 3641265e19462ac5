import SignalNet.Proofs.Net.Acyclic
import SignalNet.Proofs.Net.Slots

/-!
# Evaluation orders take the lowest block that is ready

The ordering keeps the blocks that are ready in ascending order and places the
first of them, so at every place of an evaluation order stands the lowest block
that is not placed yet and whose feeds are (`Fragment.Lowest`).

Therefore the order of the first blocks of a fragment does not depend on the
others, if no other block feeds them (`Fragment.Leading`): they come first, and
in two fragments that have them in common they come in the same order
(`Fragment.Leading.take_eq`).

An evaluation order is the lexicographically least one of all legal orders, too
(`Fragment.evaluationOrder_least`): at the first place where another order
differs from it, the block of the other order is ready, but not the lowest.
-/

namespace SignalNet

namespace Placement

variable {n : Nat} {edges : List Edge}

theorem insertAscending_sorted {b : BlockId} {xs : List BlockId} (h : xs.Pairwise (· ≤ ·)) :
    (insertAscending b xs).Pairwise (· ≤ ·) := by
  induction xs with
  | nil => simp [insertAscending]
  | cons x rest ih =>
      obtain ⟨hx, hrest⟩ := List.pairwise_cons.mp h
      rw [insertAscending]
      by_cases hle : b ≤ x
      · rw [if_pos hle]
        refine List.pairwise_cons.mpr ⟨fun c hc => ?_, h⟩
        rcases List.mem_cons.mp hc with rfl | hc
        · exact hle
        · exact Nat.le_trans hle (hx c hc)
      · rw [if_neg hle]
        refine List.pairwise_cons.mpr ⟨fun c hc => ?_, ih hrest⟩
        rcases mem_insertAscending.mp hc with rfl | hc
        · exact Nat.le_of_not_le hle
        · exact hx c hc

/-- The blocks that are ready ascend, and each block was the lowest one when it
was placed. -/
structure Ascends (n : Nat) (edges : List Edge) (s : Placement) : Prop where
  sorted : s.ready.Pairwise (· ≤ ·)
  lowest : ∀ before b after, s.placed.reverse = before ++ b :: after →
    ∀ c, c < n → c ∉ before → (∀ e ∈ edges, e.target = c → e.source ∈ before) → b ≤ c

theorem start_ascends (n : Nat) (edges : List Edge) : Ascends n edges (start n edges) where
  sorted := by
    refine List.Pairwise.filter _ ?_
    exact List.pairwise_lt_range.imp Nat.le_of_lt
  lowest := by
    intro before b after h
    simp [start] at h

theorem Ascends.release {s : Placement} (h : Ascends n edges s) (b : BlockId) :
    Ascends n edges (s.release b) := by
  refine ⟨?_, h.lowest⟩
  simp only [Placement.release]
  split
  · exact insertAscending_sorted h.sorted
  · exact h.sorted

theorem Ascends.releaseAll {s : Placement} (h : Ascends n edges s) (owed : List BlockId) :
    Ascends n edges (owed.foldl Placement.release s) := by
  induction owed generalizing s with
  | nil => exact h
  | cons b rest ih => exact ih (h.release b)

/-- Placing one block. -/
theorem Ascends.place? {s next : Placement} (htracks : Tracks n edges [] s)
    (h : Ascends n edges s) (hplace : s.place? edges = some next) : Ascends n edges next := by
  unfold Placement.place? at hplace
  cases hready : s.ready with
  | nil => simp [hready] at hplace
  | cons b rest =>
      simp only [hready, Option.some.injEq] at hplace
      subst hplace
      have hsorted := h.sorted
      rw [hready] at hsorted
      obtain ⟨hb, hrest⟩ := List.pairwise_cons.mp hsorted
      refine Ascends.releaseAll ⟨hrest, ?_⟩ _
      intro before d after hsplit c hc hfree hfed
      rw [List.reverse_cons] at hsplit
      rcases List.eq_nil_or_concat after with rfl | ⟨init, last, rfl⟩
      · -- The block just placed: any other that could have been was ready, too.
        obtain ⟨hbefore, hsingle⟩ := List.append_inj' hsplit rfl
        obtain rfl : b = d := by simpa using hsingle
        have hunplaced : c ∉ s.placed := by
          rw [← List.mem_reverse, hbefore]
          exact hfree
        have hzero : s.pending[c]? = some 0 := by
          have hnone : waiting edges s.placed c = 0 := by
            refine List.countP_eq_zero.mpr fun e he => ?_
            simp only [Bool.and_eq_true, beq_iff_eq, decide_eq_true_eq, not_and, not_not]
            intro htarget
            rw [← List.mem_reverse, hbefore]
            exact hfed e he htarget
          rw [htracks.counts c hc, hnone]
          rfl
        have hmem := (htracks.settled c).mpr hzero
        rw [hready] at hmem
        rcases List.mem_append.mp hmem with hmem | hmem
        · rcases List.mem_cons.mp hmem with rfl | hmem
          · exact Nat.le_refl _
          · exact hb c hmem
        · exact absurd hmem hunplaced
      · have hsplit' : s.placed.reverse ++ [b] = (before ++ d :: init) ++ [last] := by
          simpa using hsplit
        obtain ⟨hold, -⟩ := List.append_inj' hsplit' rfl
        exact h.lowest before d init hold c hc hfree hfed

theorem run_ascends {s : Placement} (htracks : Tracks n edges [] s) (h : Ascends n edges s)
    (fuel : Nat) : Ascends n edges (run edges fuel s) := by
  induction fuel generalizing s with
  | zero => exact h
  | succ fuel ih =>
      rw [run]
      cases hplace : s.place? edges with
      | none => exact h
      | some next => exact ih (place?_tracks htracks hplace) (h.place? htracks hplace)

end Placement

namespace Fragment

variable {α : Type} {f g : Fragment α} {order order' other : List BlockId} {k : Nat}

/-- Each block of the order is the lowest one that is not in front of it, but
has in front of it all that feeds it. -/
def Lowest (f : Fragment α) (order : List BlockId) : Prop :=
  ∀ before b after, order = before ++ b :: after →
    ∀ c, c < f.blocks.length → c ∉ before → (∀ a, f.Feeds a c → a ∈ before) → b ≤ c

/-- **An evaluation order takes the lowest block that is ready.** -/
theorem lowest_of_evaluationOrder (h : f.evaluationOrder = .ok order) : f.Lowest order := by
  have hstart := Placement.start_tracks f.blocks.length f.edges
  have hascends := Placement.run_ascends hstart (Placement.start_ascends _ _) f.blocks.length
  unfold evaluationOrder at h
  simp only at h
  split at h
  · cases h
    intro before b after hsplit c hc hfree hfed
    refine hascends.lowest before b after hsplit c hc hfree fun e he htarget => ?_
    subst htarget
    exact hfed e.source he
  · cases h

theorem Schedules.length_eq (h : f.Schedules order) : order.length = f.blocks.length := by
  have hperm : order.Perm (List.range f.blocks.length) :=
    (List.perm_ext_iff_of_nodup h.nodup List.nodup_range).mpr fun b => by
      rw [h.complete, List.mem_range]
  rw [hperm.length_eq, List.length_range]

/-- The block at one place of an evaluation order: it was not placed before,
what feeds it was, and it is the lowest such block. -/
theorem WellFormed.evaluationOrder_getElem (hf : f.WellFormed)
    (h : f.evaluationOrder = .ok order) {i : Nat} (hi : i < order.length) :
    order[i] ∉ order.take i ∧ (∀ a, f.Feeds a order[i] → a ∈ order.take i) ∧
      ∀ c, c < f.blocks.length → c ∉ order.take i →
        (∀ a, f.Feeds a c → a ∈ order.take i) → order[i] ≤ c := by
  have hschedule := schedules_of_evaluationOrder hf h
  have hsplit : order = order.take i ++ order[i] :: order.drop (i + 1) := by
    rw [List.getElem_cons_drop, List.take_append_drop]
  refine ⟨not_mem_before hschedule.nodup hsplit, ?_, lowest_of_evaluationOrder h _ _ _ hsplit⟩
  · intro a hfeeds
    obtain ⟨blk, input, source, port, hblk, hfree, hinput, hsource, hport, rfl⟩ :=
      hf.feeds_cases hfeeds
    exact hschedule.fed hsplit hblk hfree hinput hsource hport

/-- The first `k` blocks of a fragment are fed by one another only. -/
structure Leading (f : Fragment α) (k : Nat) : Prop where
  le : k ≤ f.blocks.length
  closed : ∀ a b, b < k → f.Feeds a b → a < k

/-- While the leading blocks are not all placed, one of them is ready. -/
theorem Leading.exists_ready (h : f.Leading k) (hacc : ∀ b, Acc f.Feeds b)
    {placed : List BlockId} (hlength : placed.length < k) :
    ∃ c, c < k ∧ c ∉ placed ∧ ∀ a, f.Feeds a c → a ∈ placed := by
  obtain ⟨b, hb, hfree⟩ : ∃ b, b < k ∧ b ∉ placed := by
    by_contra hnone
    push Not at hnone
    have hsub : (List.range k).Subperm placed :=
      List.nodup_range.subperm fun b hb => hnone b (List.mem_range.mp hb)
    have hle := hsub.length_le
    rw [List.length_range] at hle
    exact Nat.not_lt.mpr hle hlength
  -- What feeds an unplaced block is placed, or is looked at instead.
  induction hacc b with
  | intro b _ ih =>
      by_cases hfed : ∀ a, f.Feeds a b → a ∈ placed
      · exact ⟨b, hb, hfree, hfed⟩
      · push Not at hfed
        obtain ⟨a, hfeeds, ha⟩ := hfed
        exact ih a hfeeds (h.closed a b hb hfeeds) ha

/-- As long as leading blocks are left, the next block is one of them. -/
theorem Leading.next_lt (h : f.Leading k) (hf : f.WellFormed)
    (horder : f.evaluationOrder = .ok order) {i : Nat} (hik : i < k) (hi : i < order.length) :
    order[i] < k := by
  have hacyclic := hf.evaluationOrder_iff.mp ⟨order, horder⟩
  have hlength : (order.take i).length < k := by
    rw [List.length_take]
    omega
  obtain ⟨c, hc, hfree, hfed⟩ := h.exists_ready (hf.acc_of_acyclic hacyclic) hlength
  obtain ⟨-, -, hlowest⟩ := hf.evaluationOrder_getElem horder hi
  exact Nat.lt_of_le_of_lt (hlowest c (Nat.lt_of_lt_of_le hc h.le) hfree hfed) hc

/-- **Leading blocks come first**, in an order of their own: two fragments that
have them and the wires between them in common agree on it. -/
theorem Leading.take_eq (h : f.Leading k) (h' : g.Leading k) (hf : f.WellFormed)
    (hg : g.WellFormed) (horder : f.evaluationOrder = .ok order)
    (horder' : g.evaluationOrder = .ok order')
    (hsame : ∀ a b, b < k → (f.Feeds a b ↔ g.Feeds a b)) : order.take k = order'.take k := by
  have hlength := (schedules_of_evaluationOrder hf horder).length_eq
  have hlength' := (schedules_of_evaluationOrder hg horder').length_eq
  have hprefix : ∀ i, i ≤ k → order.take i = order'.take i := by
    intro i
    induction i with
    | zero => exact fun _ => rfl
    | succ i ih =>
        intro hik
        have htake := ih (Nat.le_of_succ_le hik)
        have hi : i < order.length := hlength ▸ Nat.lt_of_lt_of_le hik h.le
        have hi' : i < order'.length := hlength' ▸ Nat.lt_of_lt_of_le hik h'.le
        obtain ⟨hfree, hfed, hlowest⟩ := hf.evaluationOrder_getElem horder hi
        obtain ⟨hfree', hfed', hlowest'⟩ := hg.evaluationOrder_getElem horder' hi'
        have hlt := h.next_lt hf horder hik hi
        have hlt' := h'.next_lt hg horder' hik hi'
        -- Each of the two blocks could stand in the place of the other.
        rw [← htake] at hfree' hfed' hlowest'
        have hle : order[i] ≤ order'[i] :=
          hlowest _ (Nat.lt_of_lt_of_le hlt' h.le) hfree' fun a ha =>
            hfed' a ((hsame a _ hlt').mp ha)
        have hle' : order'[i] ≤ order[i] :=
          hlowest' _ (Nat.lt_of_lt_of_le hlt h'.le) hfree fun a ha =>
            hfed a ((hsame a _ hlt).mpr ha)
        rw [List.take_succ_eq_append_getElem hi, List.take_succ_eq_append_getElem hi', htake,
          Nat.le_antisymm hle hle']
  exact hprefix k (Nat.le_refl k)

/-- The leading blocks are the first part of the order. -/
theorem Leading.filter_eq (h : f.Leading k) (hf : f.WellFormed)
    (horder : f.evaluationOrder = .ok order) {p : BlockId → Bool}
    (hp : ∀ b, p b = true → b < k) : order.filter p = (order.take k).filter p := by
  have hschedule := schedules_of_evaluationOrder hf horder
  have hklength : k ≤ order.length := hschedule.length_eq ▸ h.le
  have hlt : ∀ b ∈ order.take k, b < k := by
    intro b hb
    obtain ⟨i, hi, rfl⟩ := List.mem_take_iff_getElem.mp hb
    exact h.next_lt hf horder (by omega) (by omega)
  -- There is no room for other blocks among the first `k`.
  have hfull : ∀ b, b < k → b ∈ order.take k := by
    have hsub : (order.take k).Subperm (List.range k) :=
      (hschedule.nodup.sublist (List.take_sublist k order)).subperm fun b hb =>
        List.mem_range.mpr (hlt b hb)
    have hperm : (order.take k).Perm (List.range k) :=
      hsub.perm_of_length_le (by simp [hklength])
    exact fun b hb => hperm.mem_iff.mpr (List.mem_range.mpr hb)
  have hrest : (order.drop k).filter p = [] := by
    refine List.filter_eq_nil_iff.mpr fun b hb htrue => ?_
    have hnodup := hschedule.nodup
    rw [← List.take_append_drop k order] at hnodup
    exact (List.nodup_append.mp hnodup).2.2 b (hfull b (hp b htrue)) b hb rfl
  conv_lhs => rw [← List.take_append_drop k order, List.filter_append, hrest, List.append_nil]

/-! ### The least order -/

/-- Legal orders list the same blocks. -/
theorem Legal.perm (h : f.Legal order) (hother : f.Legal other) : order.Perm other :=
  (List.perm_ext_iff_of_nodup h.nodup hother.nodup).mpr fun b => by
    rw [h.complete, hother.complete]

/-- What feeds a block of a legal order comes before it. -/
theorem Legal.fed (h : f.Legal order) (hf : f.WellFormed) {before after : List BlockId}
    {a b : BlockId} (hsplit : order = before ++ b :: after) (hfeeds : f.Feeds a b) :
    a ∈ before := by
  obtain ⟨hleads, hdelay⟩ := hf.feeds_iff.mp hfeeds
  obtain ⟨i, hi⟩ := List.mem_iff_getElem?.mp ((h.complete a).mpr (hf.feeds_lt hfeeds).1)
  have hb : order[before.length]? = some b := by
    simp [hsplit]
  have hlt := h.forward hi hb hleads hdelay
  rw [hsplit, List.getElem?_append_left hlt] at hi
  exact List.mem_of_getElem? hi

/-- From a common beginning on, the order that takes the lowest block goes on
with the lower blocks: at the first place where the two differ, the block of the
other order is ready as well. -/
theorem Lowest.least_from (hlowest : f.Lowest order) (hf : f.WellFormed) (h : f.Legal order)
    (hother : f.Legal other) (before : List BlockId) {rest rest' : List BlockId}
    (hsplit : order = before ++ rest) (hsplit' : other = before ++ rest') :
    rest = rest' ∨ List.Lex (· < ·) rest rest' := by
  have hperm : rest.Perm rest' := by
    have hall := h.perm hother
    rw [hsplit, hsplit'] at hall
    exact (List.perm_append_left_iff before).mp hall
  induction rest generalizing before rest' with
  | nil => exact .inl (List.nil_perm.mp hperm).symm
  | cons b rest ih =>
      cases rest' with
      | nil => exact absurd hperm (by simp)
      | cons c rest' =>
          by_cases heq : b = c
          · subst heq
            have hnext := ih (before ++ [b]) (by simpa using hsplit)
              (by simpa using hsplit') ((List.perm_cons b).mp hperm)
            rcases hnext with hsame | hless
            · exact .inl (congrArg _ hsame)
            · exact .inr (.cons hless)
          · have hc : c < f.blocks.length := (hother.complete c).mp (by simp [hsplit'])
            have hfree : c ∉ before := not_mem_before hother.nodup hsplit'
            have hle : b ≤ c :=
              hlowest before b rest hsplit c hc hfree fun a ha => hother.fed hf hsplit' ha
            exact .inr (.rel (Nat.lt_of_le_of_ne hle heq))

/-- **The evaluation order is the lexicographically least legal order.** -/
theorem evaluationOrder_least {f : Fragment α} {order : List BlockId} (hf : f.Reachable)
    (h : f.evaluationOrder = .ok order) :
    f.Legal order ∧
      ∀ other, f.Legal other → order = other ∨ List.Lex (· < ·) order other := by
  have hwell := hf.wellFormed
  have hlegal := hwell.legal h
  exact ⟨hlegal, fun other hother =>
    (lowest_of_evaluationOrder h).least_from hwell hlegal hother [] rfl rfl⟩

/-- The order of the counter with a delay in its loop. -/
theorem ring_least :
    Sample.ring.evaluationOrder = .ok [0, 2, 3, 1, 4] ∧
      ∀ other, Sample.ring.Legal other →
        [0, 2, 3, 1, 4] = other ∨ List.Lex (· < ·) [0, 2, 3, 1, 4] other := by
  have horder : Sample.ring.evaluationOrder = .ok [0, 2, 3, 1, 4] := by decide +kernel
  exact ⟨horder, (evaluationOrder_least (f := Sample.ring) ⟨_, rfl⟩ horder).2⟩

end Fragment

end SignalNet
