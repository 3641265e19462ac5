import Mathlib.Data.List.Forall2
import Mathlib.Order.Defs.Unbundled
import SignalNet.Expr.Pool

/-!
# Joining scopes

`Scope.encloses` orders the scopes: the global scope is enclosed by every scope,
and a context by its commands.  Two scopes have a join exactly if one of them
encloses the other, and then the join is that one.  So the join of a list can
only be one of its members, the one that encloses all others
(`Scope.IsJoin`), and whether there is one does not depend on how the list is
run through: from the left (`joinAll?_eq_some_iff`) or along any tree
(`Grouping.join?_eq_some_iff`).

Members that exclude each other can stand far apart, with scopes between them
that fit both.  `exists_isJoin_iff` says that this does not hide the conflict:
a list has a join exactly if its members fit pairwise.
-/

namespace SignalNet

namespace Scope

/-! ### The order of the scopes -/

theorem encloses_iff {s inner : Scope} : s.encloses inner = true ↔ s.join? inner = some s := by
  simp [encloses]

theorem encloses_global (s : Scope) : s.encloses .global = true := by
  cases s <;> simp [encloses, join?]

theorem encloses_self (s : Scope) : s.encloses s = true := by
  cases s <;> simp [encloses, join?]

/-- A scope encloses a join exactly if it encloses both sides. -/
theorem encloses_join {s a b c : Scope} (h : a.join? b = some c) :
    s.encloses c = true ↔ s.encloses a = true ∧ s.encloses b = true := by
  unfold encloses
  simp only [decide_eq_true_eq]
  cases a <;> cases b <;> cases s <;> simp only [join?] at h ⊢ <;> grind

theorem encloses_trans {a b c : Scope} (hab : a.encloses b = true) (hbc : b.encloses c = true) :
    a.encloses c = true :=
  ((encloses_join (encloses_iff.mp hbc)).mp hab).2

theorem join?_comm (a b : Scope) : a.join? b = b.join? a := by
  cases a <;> cases b <;> simp only [join?] <;> grind

theorem encloses_antisymm {a b : Scope} (hab : a.encloses b = true) (hba : b.encloses a = true) :
    a = b := by
  have h := encloses_iff.mp hab
  rw [join?_comm, encloses_iff.mp hba] at h
  exact (Option.some.inj h).symm

instance : IsPartialOrder Scope fun s inner => s.encloses inner = true where
  refl := encloses_self
  trans _ _ _ := encloses_trans
  antisymm _ _ := encloses_antisymm

/-! ### The join of two scopes -/

theorem join?_eq_or {a b c : Scope} (h : a.join? b = some c) : c = a ∨ c = b := by
  cases a <;> cases b <;> simp only [join?] at h <;> grind

theorem encloses_of_join? {a b c : Scope} (h : a.join? b = some c) :
    c.encloses a = true ∧ c.encloses b = true :=
  (encloses_join h).mp c.encloses_self

/-- Scopes that lie around a common one do not exclude each other. -/
theorem exists_join? {s a b : Scope} (ha : s.encloses a = true) (hb : s.encloses b = true) :
    ∃ c, a.join? b = some c := by
  rw [encloses_iff] at ha hb
  cases s <;> cases a <;> cases b <;> simp only [join?] at ha hb ⊢ <;> grind

/-! ### The join of a list -/

/-- The most specific scope of a list, which encloses all others.  The empty
list is joined to the global scope. -/
structure IsJoin (scopes : List Scope) (s : Scope) : Prop where
  member : s ∈ scopes ∨ s = global
  encloses : ∀ a ∈ scopes, s.encloses a = true

namespace IsJoin

theorem unique {scopes : List Scope} {s t : Scope} (hs : IsJoin scopes s) (ht : IsJoin scopes t) :
    s = t := by
  have above : ∀ {s t}, IsJoin scopes s → IsJoin scopes t → s.encloses t = true := by
    intro s t hs ht
    rcases ht.member with h | rfl
    · exact hs.encloses t h
    · exact s.encloses_global
  exact encloses_antisymm (above hs ht) (above ht hs)

/-- A scope that encloses all members encloses their join. -/
theorem enclosed {scopes : List Scope} {s t : Scope} (hs : IsJoin scopes s)
    (ht : ∀ a ∈ scopes, t.encloses a = true) : t.encloses s = true := by
  rcases hs.member with h | rfl
  · exact ht s h
  · exact t.encloses_global

theorem perm {xs ys : List Scope} {s : Scope} (h : xs.Perm ys) : IsJoin xs s ↔ IsJoin ys s := by
  constructor
  · intro hs
    exact ⟨hs.member.imp_left h.mem_iff.mp, fun a ha => hs.encloses a (h.mem_iff.mpr ha)⟩
  · intro hs
    exact ⟨hs.member.imp_left h.mem_iff.mpr, fun a ha => hs.encloses a (h.mem_iff.mp ha)⟩

theorem nil_iff {s : Scope} : IsJoin [] s ↔ s = global :=
  ⟨fun h => by simpa using h.member, fun h => ⟨.inr h, by simp⟩⟩

theorem singleton_iff {a s : Scope} : IsJoin [a] s ↔ s = a := by
  constructor
  · intro h
    exact h.unique ⟨by simp, by simpa using a.encloses_self⟩
  · rintro rfl
    exact ⟨by simp, by simpa using s.encloses_self⟩

theorem global_cons_iff {scopes : List Scope} {s : Scope} :
    IsJoin (global :: scopes) s ↔ IsJoin scopes s := by
  constructor
  · intro h
    exact ⟨by simpa [or_comm, or_assoc] using h.member, fun a ha => h.encloses a (by simp [ha])⟩
  · intro h
    exact ⟨by simpa [or_comm, or_assoc] using h.member,
      List.forall_mem_cons.mpr ⟨s.encloses_global, h.encloses⟩⟩

/-- Two lists that have joins which fit together. -/
theorem append {xs ys : List Scope} {a b s : Scope} (hx : IsJoin xs a) (hy : IsJoin ys b)
    (h : a.join? b = some s) : IsJoin (xs ++ ys) s := by
  obtain ⟨ha, hb⟩ := encloses_of_join? h
  refine ⟨?_, ?_⟩
  · rcases join?_eq_or h with rfl | rfl
    · exact hx.member.imp_left (List.mem_append_left ys)
    · exact hy.member.imp_left (List.mem_append_right xs)
  · intro x hmem
    rcases List.mem_append.mp hmem with hmem | hmem
    · exact encloses_trans ha (hx.encloses x hmem)
    · exact encloses_trans hb (hy.encloses x hmem)

end IsJoin

/-- A list has a join exactly if its members fit pairwise. -/
theorem exists_isJoin_iff {scopes : List Scope} :
    (∃ s, IsJoin scopes s) ↔ ∀ a ∈ scopes, ∀ b ∈ scopes, ∃ j, a.join? b = some j := by
  constructor
  · rintro ⟨s, hs⟩ a ha b hb
    exact exists_join? (hs.encloses a ha) (hs.encloses b hb)
  · intro h
    induction scopes with
    | nil => exact ⟨global, IsJoin.nil_iff.mpr rfl⟩
    | cons a rest ih =>
        obtain ⟨s, hs⟩ := ih fun b hb c hc =>
          h b (List.mem_cons_of_mem a hb) c (List.mem_cons_of_mem a hc)
        -- the join of the rest is one of its members, so it fits the first scope
        have hfits : ∃ j, a.join? s = some j := by
          rcases hs.member with hmem | rfl
          · exact h a List.mem_cons_self s (List.mem_cons_of_mem a hmem)
          · exact ⟨a, by rw [join?_comm]; rfl⟩
        obtain ⟨j, hj⟩ := hfits
        exact ⟨j, (IsJoin.singleton_iff.mpr rfl).append hs hj⟩

/-- Parts of a list that has a join have joins, and these fit together. -/
theorem isJoin_append_iff {xs ys : List Scope} {s : Scope} :
    IsJoin (xs ++ ys) s ↔ ∃ a b, IsJoin xs a ∧ IsJoin ys b ∧ a.join? b = some s := by
  constructor
  · intro h
    have hxs : ∀ a ∈ xs, s.encloses a = true := fun a ha => h.encloses a (by simp [ha])
    have hys : ∀ a ∈ ys, s.encloses a = true := fun a ha => h.encloses a (by simp [ha])
    obtain ⟨a, ha⟩ := exists_isJoin_iff.mpr fun x hx y hy => exists_join? (hxs x hx) (hxs y hy)
    obtain ⟨b, hb⟩ := exists_isJoin_iff.mpr fun x hx y hy => exists_join? (hys x hx) (hys y hy)
    obtain ⟨c, hc⟩ := exists_join? (ha.enclosed hxs) (hb.enclosed hys)
    exact ⟨a, b, ha, hb, (ha.append hb hc).unique h ▸ hc⟩
  · rintro ⟨a, b, ha, hb, h⟩
    exact ha.append hb h

theorem isJoin_pair_iff {a b s : Scope} : IsJoin [a, b] s ↔ a.join? b = some s := by
  rw [← List.singleton_append, isJoin_append_iff]
  simp [IsJoin.singleton_iff]

theorem isJoin_cons_iff {a s : Scope} {rest : List Scope} :
    IsJoin (a :: rest) s ↔ ∃ b, IsJoin rest b ∧ a.join? b = some s := by
  rw [← List.singleton_append, isJoin_append_iff]
  simp [IsJoin.singleton_iff]

theorem joinAll?_eq_some_iff {scopes : List Scope} {start s : Scope} :
    start.joinAll? scopes = some s ↔ IsJoin (start :: scopes) s := by
  induction scopes generalizing start with
  | nil => simp [joinAll?, IsJoin.singleton_iff, eq_comm]
  | cons a rest ih =>
      -- the first two scopes are joined first, and the result takes their place
      calc start.joinAll? (a :: rest) = some s
        _ ↔ ∃ j, start.join? a = some j ∧ j.joinAll? rest = some s := by
            simp [joinAll?, List.foldlM_cons, Option.bind_eq_some_iff]
        _ ↔ ∃ j, IsJoin [start, a] j ∧ ∃ b, IsJoin rest b ∧ j.join? b = some s := by
            simp only [ih, isJoin_pair_iff, @isJoin_cons_iff _ _ rest]
        _ ↔ IsJoin (start :: a :: rest) s := by
            rw [show start :: a :: rest = [start, a] ++ rest from rfl, isJoin_append_iff]
            simp

/-! ### Groupings -/

/-- A way to join scopes two at a time. -/
inductive Grouping
  | nothing
  | scope (s : Scope)
  | both (left right : Grouping)

namespace Grouping

/-- The scopes of a grouping, from left to right. -/
def scopes : Grouping → List Scope
  | nothing => []
  | scope s => [s]
  | both left right => left.scopes ++ right.scopes

/-- Join each side, then the two results. -/
def join? : Grouping → Option Scope
  | nothing => some .global
  | scope s => some s
  | both left right => do
      let a ← left.join?
      let b ← right.join?
      a.join? b

theorem join?_eq_some_iff {t : Grouping} {s : Scope} : t.join? = some s ↔ IsJoin t.scopes s := by
  induction t generalizing s with
  | nothing => simp [join?, scopes, IsJoin.nil_iff, eq_comm]
  | scope a => simp [join?, scopes, IsJoin.singleton_iff, eq_comm]
  | both left right ihl ihr =>
      simp only [join?, scopes, isJoin_append_iff, ← ihl, ← ihr]
      simp [Option.bind_eq_some_iff]

end Grouping

end Scope

/-! ### The scopes of operands -/

/-- The scope of a composite expression is found by joining the scopes of its
operands. -/
theorem Pool.joinScopes_toOption {α : Type} {p : Pool α} {ids : List ExprId}
    {scopes : List Scope} (h : List.Forall₂ (fun id s => p.scopeOf id = .ok s) ids scopes)
    (first : Scope) : (p.joinScopes first ids).toOption = first.joinAll? scopes := by
  induction h generalizing first with
  | nil => rfl
  | @cons id s ids scopes hs _ ih =>
      rw [Pool.joinScopes, hs]
      cases hjoin : first.join? s with
      | none => simp [Scope.joinAll?, hjoin, Except.toOption]
      | some joined => simpa [Scope.joinAll?, hjoin] using ih joined

/-- **Whether scopes fit together does not depend on their order.**  Joining a
list from the global scope gives the same result for all its permutations and
groupings.  There is a result exactly if every two members can be joined, and
it is the member, or the global scope, that encloses every member; since
`encloses` is a partial order, there is only one.  This is the check that the
operands of a composite expression have to pass. -/
theorem Scope.joining_is_unordered (scopes : List Scope) :
    (∀ t : Grouping, t.scopes.Perm scopes → t.join? = global.joinAll? scopes) ∧
    (∀ others, others.Perm scopes → global.joinAll? others = global.joinAll? scopes) ∧
    ((∃ s, global.joinAll? scopes = some s) ↔
      ∀ a ∈ scopes, ∀ b ∈ scopes, ∃ j, a.join? b = some j) ∧
    (∀ s, global.joinAll? scopes = some s ↔ IsJoin scopes s) ∧
    IsPartialOrder Scope (fun s inner => s.encloses inner = true) ∧
    ∀ {α : Type} (p : Pool α) (ids : List ExprId),
      List.Forall₂ (fun id s => p.scopeOf id = .ok s) ids scopes →
      (p.joinScopes .global ids).toOption = global.joinAll? scopes := by
  have hfold : ∀ scopes s, global.joinAll? scopes = some s ↔ IsJoin scopes s :=
    fun _ _ => joinAll?_eq_some_iff.trans IsJoin.global_cons_iff
  refine ⟨?_, ?_, ?_, hfold scopes, inferInstance, ?_⟩
  · intro t ht
    ext s
    rw [Grouping.join?_eq_some_iff, hfold, IsJoin.perm ht]
  · intro others hperm
    ext s
    rw [hfold, hfold, IsJoin.perm hperm]
  · simp only [hfold, exists_isJoin_iff]
  · intro α p ids h
    exact Pool.joinScopes_toOption h .global

end SignalNet
