import SignalNet.Proofs.Pool.Tree

/-!
# Substitution

Substitution goes down from a root.  It looks up what it meets in the map and in
what it has rebuilt (`Pool.substituteWithin_known`), passes other leaves by
(`Pool.substituteWithin_leaf`), and rebuilds the rest from the images of the
operands (`Pool.substituteWithin_composite`).

* Without folding, substitution is the simultaneous replacement of trees
  (`Pool.substitute_replaces`).  The graph disappears from the statement: what is
  remembered stands for what it was rebuilt from (`Pool.Underway`), and that is
  kept while the pool grows.
* Where no key leads to anything else, nothing is rebuilt, with folding or
  without it (`Pool.substitute_untouched`).
-/

namespace SignalNet

open Computing

variable {α : Type}

/-- Other operands leave the shape of a form. -/
theorem Form.shape_of_withDependencies {form other : Form α} {ids : List ExprId}
    (h : form.withDependencies? ids = some other) : other.shape = form.shape := by
  unfold Form.withDependencies? at h
  split at h <;> grind [Form.shape]

theorem Form.isLeaf_congr {form form' : Form α}
    (h : form.dependencies.length = form'.dependencies.length) : form.isLeaf = form'.isLeaf := by
  rw [isLeaf, isLeaf, Bool.eq_iff_iff, List.isEmpty_iff_length_eq_zero,
    List.isEmpty_iff_length_eq_zero, h]

variable [Scalar α]

theorem Form.shape_canonical (form : Form α) : form.canonical.shape = form.shape.canonical := by
  cases form <;> rfl

namespace Pool

/-! ### One step -/

section Steps

variable {map : Table ExprId ExprId} {id image : ExprId} {done : Rebuilt} {p : Pool α} {n : Node α}

/-- Keys, and what has been rebuilt, are looked up. -/
theorem substituteWithin_known (h : (map.get? id).or (done.get? id) = some image) (fuel : Nat) :
    substituteWithin map fuel id done p = .ok (image, done) p := by
  unfold substituteWithin
  rw [h]
  rfl

/-- What does not exist is reported. -/
theorem substituteWithin_unknown (h : (map.get? id).or (done.get? id) = none)
    (hn : p.get? id = none) (fuel : Nat) :
    substituteWithin map fuel id done p = .error (.unknownExpr id) p := by
  unfold substituteWithin
  simp only [h, get_bind, node, hn]
  exact bind_of_error rfl

/-- Other leaves stay. -/
theorem substituteWithin_leaf (h : (map.get? id).or (done.get? id) = none)
    (hn : p.get? id = some n) (hleaf : n.form.isLeaf = true) (fuel : Nat) :
    substituteWithin map fuel id done p = .ok (id, done) p := by
  unfold substituteWithin
  simp only [h, get_bind, node_eq_ok.mpr hn]
  rw [bind_of_ok (show Building.ofExcept (.ok n) p = .ok n p from rfl), if_pos hleaf]
  rfl

/-- Everything else is rebuilt from the images of its operands. -/
theorem substituteWithin_composite (h : (map.get? id).or (done.get? id) = none)
    (hn : p.get? id = some n) (hleaf : n.form.isLeaf = false) (fuel : Nat) :
    substituteWithin map (fuel + 1) id done p =
      (do
        Building.ofExcept (substitutable n.form)
        let (images, done) ← substituteAll (substituteWithin map fuel) n.dependencies done
        let result ← rebuild id n.form images
        pure (result, done.insert id result) : Building α (ExprId × Rebuilt)) p := by
  conv_lhs => unfold substituteWithin
  simp only [h, get_bind, node_eq_ok.mpr hn]
  rw [bind_of_ok (show Building.ofExcept (.ok n) p = .ok n p from rfl), if_neg (by simp [hleaf])]
  rfl

end Steps

/-! ### Substitution of trees -/

/-- Without folding the tree of what is rebuilt has the shape of the form, and
the trees of the images below it. -/
theorem rebuild_plain {p q : Pool α} (hp : p.WellFormed) (hfolding : p.folding = false)
    {id result : ExprId} {n : Node α} (hn : p.get? id = some n) (hleaf : n.form.isLeaf = false)
    {images : List ExprId} (hlength : images.length = n.dependencies.length) {ts : List (Tree α)}
    (hts : List.Forall₂ (fun d t => p.tree? d = some t) images ts)
    (h : rebuild id n.form images p = .ok result q) :
    q.tree? result = some (.node n.form.canonical.shape ts) := by
  unfold rebuild at h
  by_cases hsame : images = n.form.dependencies
  · rw [if_pos hsame] at h
    obtain ⟨rfl, rfl⟩ := pure_eq_ok.mp h
    subst hsame
    exact (tree?_node hp hn hleaf).mpr ⟨ts, rfl, hts⟩
  · rw [if_neg hsame] at h
    cases hother : n.form.withDependencies? images with
    | none =>
        rw [hother] at h
        cases h
    | some other =>
        rw [hother] at h
        obtain ⟨hq, hextends⟩ := (build_sound other).grown hp h
        obtain ⟨scope, kind, -, -, hintern⟩ := buildWithin_interns hfolding h
        obtain ⟨m, hm, hcanonical⟩ := intern_eq_ok hp hintern
        obtain ⟨hform, -⟩ := canonical_eq_parts hcanonical
        have hoperands : m.dependencies = images := by
          rw [Node.dependencies, Form.canonical_dependencies hform]
          exact Form.dependencies_of_withDependencies hother
        have hshape : m.form.canonical.shape = n.form.canonical.shape := by
          rw [hform, Form.shape_canonical, Form.shape_of_withDependencies hother,
            ← Form.shape_canonical]
        have hmleaf : m.form.isLeaf = false := by
          rw [← hoperands] at hlength
          exact (Form.isLeaf_congr hlength).trans hleaf
        refine (tree?_node hq hm hmleaf).mpr ⟨ts, by rw [hshape], ?_⟩
        rw [hoperands]
        refine hts.imp ?_
        intro d t ht
        rw [hextends.tree? hp ((exists_tree? hp).mp ⟨t, ht⟩)]
        exact ht

/-- The tree of the expression at `image` is the tree of the one at `id`, after
the replacement. -/
def StandsFor (p : Pool α) (images : Table (Tree α) (Tree α)) (q : Pool α) (id image : ExprId) :
    Prop :=
  ∃ t, p.tree? id = some t ∧ q.tree? image = some (t.replace images)

/-- A substitution that has begun in `p` has come to `q`: what it remembers
stands for what it was rebuilt from. -/
structure Underway (p : Pool α) (images : Table (Tree α) (Tree α)) (q : Pool α)
    (done : Rebuilt) : Prop where
  wellFormed : q.WellFormed
  «extends» : p.Extends q
  remembered : ∀ {id image : ExprId}, done.get? id = some image → p.StandsFor images q id image

section Trees

variable {p q r : Pool α} {images : Table (Tree α) (Tree α)} {map : Table ExprId ExprId}
  {done done' : Rebuilt}

theorem StandsFor.extend {id image : ExprId} (h : p.StandsFor images q id image)
    (hq : q.WellFormed) (hqr : q.Extends r) : p.StandsFor images r id image := by
  obtain ⟨t, ht, himage⟩ := h
  refine ⟨t, ht, ?_⟩
  rw [hqr.tree? hq ((exists_tree? hq).mp ⟨_, himage⟩)]
  exact himage

/-- **A list of operands** is replaced if each of them is. -/
theorem substituteAll_stands {one : ExprId → Rebuilt → Building α (ExprId × Rebuilt)}
    {ids : List ExprId}
    (hone : ∀ id ∈ ids, ∀ {q r : Pool α} {done done' : Rebuilt} {image : ExprId},
      p.Underway images q done → one id done q = .ok (image, done') r →
      p.Underway images r done' ∧ q.Extends r ∧ p.StandsFor images r id image)
    (hq : p.Underway images q done) {results : List ExprId}
    (h : substituteAll one ids done q = .ok (results, done') r) :
    p.Underway images r done' ∧ q.Extends r ∧ List.Forall₂ (p.StandsFor images r) ids results := by
  induction ids generalizing q done results with
  | nil =>
      obtain ⟨heq, rfl⟩ := pure_eq_ok.mp h
      cases heq
      exact ⟨hq, .refl q, .nil⟩
  | cons id rest ih =>
      obtain ⟨⟨image, done₁⟩, q₁, hid, hafter⟩ := bind_eq_ok.mp h
      obtain ⟨⟨others, done₂⟩, q₂, hrest, hend⟩ := bind_eq_ok.mp hafter
      obtain ⟨heq, rfl⟩ := pure_eq_ok.mp hend
      cases heq
      obtain ⟨hq₁, hextends, hstands⟩ := hone id List.mem_cons_self hq hid
      obtain ⟨hr, hextends', hothers⟩ :=
        ih (fun d hd => hone d (List.mem_cons_of_mem id hd)) hq₁ hrest
      exact ⟨hr, hextends.trans hextends',
        .cons (hstands.extend hq₁.wellFormed hextends') hothers⟩

/-- **A composite expression** is replaced by what is rebuilt from the images of
its operands. -/
theorem rebuild_stands (hp : p.WellFormed) (hfolding : p.folding = false) {id : ExprId}
    {n : Node α} (hn : p.get? id = some n) (hleaf : n.form.isLeaf = false) {t : Tree α}
    (ht : p.tree? id = some t) (hkey : images.get? t = none) (hq : p.Underway images q done)
    {results : List ExprId}
    (hstands : List.Forall₂ (p.StandsFor images q) n.dependencies results) {result : ExprId}
    (h : rebuild id n.form results q = .ok result r) :
    p.Underway images r (done.insert id result) ∧ q.Extends r ∧
      p.StandsFor images r id result := by
  obtain ⟨ts, rfl, hts⟩ := (tree?_node hp hn hleaf).mp ht
  obtain ⟨hr, hextends⟩ := (rebuild_sound id n.form results).grown hq.wellFormed h
  have hresults : List.Forall₂ (fun d t => q.tree? d = some t) results
      (ts.map (Tree.replace images)) := by
    rw [List.forall₂_map_right_iff]
    refine (forall₂_meet hstands hts).imp ?_
    rintro image t ⟨d, ⟨s, hs, himage⟩, hd⟩
    rw [hs] at hd
    cases hd
    exact himage
  have htree := rebuild_plain hq.wellFormed (hq.extends.folding.trans hfolding)
    (hq.extends.get? hn) hleaf hstands.length_eq.symm hresults h
  have hresult : p.StandsFor images r id result := by
    refine ⟨_, ht, ?_⟩
    rw [htree, Tree.replace_node hkey]
  refine ⟨⟨hr, hq.extends.trans hextends, ?_⟩, hextends, hresult⟩
  intro k image hk
  rcases Table.get?_insert_cases hk with ⟨rfl, rfl⟩ | hold
  · exact hresult
  · exact (hq.remembered hold).extend hq.wellFormed hextends

/-- **Any expression** is replaced: it is a key, it has been rebuilt, it is a
leaf, or it is composite. -/
theorem substituteWithin_stands (hp : p.WellFormed) (hfolding : p.folding = false)
    (hmap : p.Leads map) {fuel : Nat} {id image : ExprId} (hfuel : id < fuel) (hid : p.Present id)
    (hq : p.Underway (p.images map) q done)
    (h : substituteWithin map fuel id done q = .ok (image, done') r) :
    p.Underway (p.images map) r done' ∧ q.Extends r ∧ p.StandsFor (p.images map) r id image := by
  induction fuel generalizing id q r done done' image with
  | zero => exact absurd hfuel (Nat.not_lt_zero id)
  | succ fuel ih =>
      obtain ⟨n, hn⟩ := get?_of_lt_size hid
      obtain ⟨t, ht⟩ := (exists_tree? hp).mpr hid
      have hqn := hq.extends.get? hn
      have hlookup := get?_images hp ht fun _ => hmap
      cases hknown : (map.get? id).or (done.get? id) with
      | some known =>
          rw [substituteWithin_known hknown] at h
          cases h
          refine ⟨hq, .refl q, ?_⟩
          rcases Option.or_eq_some_iff.mp hknown with hkey | ⟨-, hdone⟩
          · obtain ⟨s, hs⟩ := (exists_tree? hp).mpr (hmap hkey)
            rw [hkey, Option.bind_some, hs] at hlookup
            refine ⟨t, ht, ?_⟩
            rw [hq.extends.tree? hp (hmap hkey), hs, Tree.replace_image hlookup]
          · exact hq.remembered hdone
      | none =>
          obtain ⟨hkey, -⟩ := Option.or_eq_none_iff.mp hknown
          rw [hkey, Option.bind_none] at hlookup
          cases hleaf : n.form.isLeaf with
          | true =>
              rw [substituteWithin_leaf hknown hqn hleaf] at h
              cases h
              refine ⟨hq, .refl q, t, ht, ?_⟩
              rw [tree?_leaf hn hleaf] at ht
              cases ht
              rw [tree?_leaf hqn hleaf, Tree.replace_leaf hlookup]
          | false =>
              rw [substituteWithin_composite hknown hqn hleaf] at h
              obtain ⟨_, _, hcheck, h⟩ := bind_eq_ok.mp h
              obtain ⟨-, rfl⟩ := ofExcept_eq_ok.mp hcheck
              obtain ⟨⟨results, done₁⟩, q₁, hall, h⟩ := bind_eq_ok.mp h
              obtain ⟨result, _, hrebuild, h⟩ := bind_eq_ok.mp h
              obtain ⟨heq, rfl⟩ := pure_eq_ok.mp h
              cases heq
              have hoperand : ∀ d ∈ n.dependencies, d < fuel ∧ p.Present d := by
                intro d hd
                have hlt : d < id := hp.before hn d hd
                exact ⟨Nat.lt_of_lt_of_le hlt (Nat.le_of_lt_succ hfuel), Nat.lt_trans hlt hid⟩
              obtain ⟨hq₁, hextends, hstands⟩ := substituteAll_stands
                (fun d hd _ _ _ _ _ => ih (hoperand d hd).1 (hoperand d hd).2) hq hall
              obtain ⟨hr, hextends', hresult⟩ :=
                rebuild_stands hp hfolding hn hleaf ht hlookup hq₁ hstands hrebuild
              exact ⟨hr, hextends.trans hextends', hresult⟩

end Trees

/-- Substitution starts in an expression that exists. -/
theorem substitute_present {p q : Pool α} {root result : ExprId} {map : Table ExprId ExprId}
    (hmap : ∀ {id image : ExprId}, map.get? id = some image → p.Present id)
    (h : substitute root map p = .ok result q) : p.Present root := by
  cases hkey : map.get? root with
  | some image => exact hmap hkey
  | none =>
      cases hn : p.get? root with
      | some n => exact lt_size_of_get? hn
      | none =>
          obtain ⟨_, _, hrun, -⟩ := bind_eq_ok.mp h
          rw [substituteWithin_unknown (by simp [hkey]) hn] at hrun
          cases hrun

/-- **Without folding, substitution replaces trees.**  Take a pool that calls
lead to, and substitute in any expression with a map between expressions that
exist.  If that succeeds, then the tree of the result is the tree of the root in
which every outermost occurrence of a key has been replaced by the tree of its
image, all at once and with images left as they are.  No node that was there
before has changed. -/
theorem substitute_replaces {p q : Pool α} (hp : p.Reachable) (hfolding : p.folding = false)
    {root result : ExprId} {map : Table ExprId ExprId}
    (hmap : ∀ {id image : ExprId}, map.get? id = some image → p.Present id ∧ p.Present image)
    (h : substitute root map p = .ok result q) :
    (∃ t, p.tree? root = some t ∧ q.tree? result = some (t.replace (p.images map))) ∧
      ∀ {id : ExprId} {n : Node α}, p.get? id = some n → q.get? id = some n := by
  have hroot := substitute_present (fun hkey => (hmap hkey).1) h
  obtain ⟨⟨image, done⟩, _, hrun, hend⟩ := bind_eq_ok.mp h
  obtain ⟨rfl, rfl⟩ := pure_eq_ok.mp hend
  have hbegun : p.Underway (p.images map) p .empty :=
    ⟨hp.wellFormed, .refl p, fun hknown => by simp at hknown⟩
  obtain ⟨-, hextends, hstands⟩ := substituteWithin_stands hp.wellFormed hfolding
    (fun hkey => (hmap hkey).2) (Nat.lt_succ_self root) hroot hbegun hrun
  exact ⟨hstands, hextends.get?⟩

/-- A number and its negation, added, and another number. -/
def Sample.difference : Pool Float :=
  performAll [.input "a" .integer .global, .input "b" .integer .global, .unary .neg 0,
    .binary .add 2 0] { folding := false }

/-- The negation becomes the first number, which is left alone there, and the
first number itself becomes the second one. -/
theorem difference_replaces :
    ∃ q t, substitute 3 ⟨[(2, 0), (0, 1)]⟩ Sample.difference = .ok 4 q ∧
      Sample.difference.tree? 3 = some t ∧
      q.tree? 4 = some (t.replace (Sample.difference.images ⟨[(2, 0), (0, 1)]⟩)) ∧
      q.form? 4 = some (.binary .add 0 1) := by
  have hresult : outcome (substitute 3 ⟨[(2, 0), (0, 1)]⟩ Sample.difference) = .ok 4 := by
    decide +kernel
  have hmap : ∀ {id image : ExprId}, (Table.mk [(2, 0), (0, 1)]).get? id = some image →
      Sample.difference.Present id ∧ Sample.difference.Present image := by
    intro id image h
    have hsize : Sample.difference.size = 4 := by decide +kernel
    have hentry := Table.mem_of_get? h
    simp only [List.mem_cons, Prod.mk.injEq, List.not_mem_nil, or_false] at hentry
    rcases hentry with ⟨rfl, rfl⟩ | ⟨rfl, rfl⟩ <;> simp [Present, hsize]
  have hfolding : Sample.difference.folding = false := by decide +kernel
  have hrun := outcome_eq_ok hresult
  obtain ⟨⟨t, ht, htree⟩, -⟩ := substitute_replaces ⟨false, _, rfl⟩ hfolding hmap hrun
  exact ⟨_, t, hrun, ht, htree, by decide +kernel⟩

/-! ### Expressions that stay -/

/-- The expressions that a substitution goes into: a path from the root leads
there that meets no key. -/
inductive Enters (p : Pool α) (map : Table ExprId ExprId) (root : ExprId) : ExprId → Prop
  | root (hkey : map.get? root = none) : Enters p map root root
  | operand {id d : ExprId} {n : Node α} (h : Enters p map root id) (hn : p.get? id = some n)
      (hd : d ∈ n.dependencies) (hkey : map.get? d = none) : Enters p map root d

omit [Scalar α] in
theorem Enters.reaches {p : Pool α} {map : Table ExprId ExprId} {root id : ExprId}
    (h : p.Enters map root id) : p.Reaches root id ∧ map.get? id = none := by
  induction h with
  | root hkey => exact ⟨.root, hkey⟩
  | operand _ hn hd hkey ih => exact ⟨.operand ih.1 hn hd, hkey⟩

/-- What has been rebuilt is what it was. -/
def Idle (done : Rebuilt) : Prop :=
  ∀ {id image : ExprId}, done.get? id = some image → image = id

/-- A substitution succeeds and leaves things as they are. -/
def Untouched {β : Type} (p : Pool α) (b : β) (x : Building α (β × Rebuilt)) : Prop :=
  ∃ done, Idle done ∧ x p = .ok (b, done) p

theorem Idle.insert {done : Rebuilt} (h : Idle done) (id : ExprId) : Idle (done.insert id id) := by
  intro k image hk
  rcases Table.get?_insert_cases hk with ⟨rfl, rfl⟩ | hold
  · rfl
  · exact h hold

/-- An expression whose operands stay is not rebuilt. -/
theorem rebuild_same (p : Pool α) (id : ExprId) (n : Node α) :
    rebuild id n.form n.dependencies p = .ok id p := by
  have hsame : n.dependencies = n.form.dependencies := rfl
  unfold rebuild
  rw [if_pos hsame]
  rfl

omit [Scalar α] in
theorem substitutable_of_replaceable {form : Form α}
    (h : ∀ c, form = .custom c → c.replaceable = true) : substitutable form = .ok () := by
  cases form with
  | custom c => simp [substitutable, h c rfl]
  | _ => rfl

omit [Scalar α] in
theorem substituteAll_untouched {p : Pool α}
    {one : ExprId → Rebuilt → Building α (ExprId × Rebuilt)} {ids : List ExprId}
    (hone : ∀ id ∈ ids, ∀ {done}, Idle done → p.Untouched id (one id done))
    {done : Rebuilt} (hdone : Idle done) : p.Untouched ids (substituteAll one ids done) := by
  induction ids generalizing done with
  | nil => exact ⟨done, hdone, rfl⟩
  | cons id rest ih =>
      obtain ⟨done₁, hdone₁, hid⟩ := hone id List.mem_cons_self hdone
      obtain ⟨done₂, hdone₂, hrest⟩ := ih (fun d hd => hone d (List.mem_cons_of_mem id hd)) hdone₁
      refine ⟨done₂, hdone₂, ?_⟩
      rw [substituteAll, bind_of_ok hid]
      dsimp only
      rw [bind_of_ok hrest]
      rfl

section Idle

variable {p : Pool α} {map : Table ExprId ExprId} {root : ExprId}
  (hkeys : ∀ {id image : ExprId}, p.Reaches root id → map.get? id = some image → image = id)
  (hcustom : ∀ {id : ExprId} {c : CustomForm α}, p.Enters map root id →
    p.form? id = some (.custom c) → c.operands = [] ∨ c.replaceable = true)

include hkeys hcustom

/-- **An expression stays** if it leads to no key that is replaced. -/
theorem substituteWithin_untouched (hp : p.WellFormed) {fuel : Nat} {id : ExprId}
    (hfuel : id < fuel) (hid : p.Present id) (hreaches : p.Reaches root id)
    (henters : map.get? id = none → p.Enters map root id) {done : Rebuilt} (hdone : Idle done) :
    p.Untouched id (substituteWithin map fuel id done) := by
  induction fuel generalizing id done with
  | zero => exact absurd hfuel (Nat.not_lt_zero id)
  | succ fuel ih =>
      cases hknown : (map.get? id).or (done.get? id) with
      | some image =>
          have hsame : image = id := by
            rcases Option.or_eq_some_iff.mp hknown with hkey | ⟨-, hdone'⟩
            · exact hkeys hreaches hkey
            · exact hdone hdone'
          subst hsame
          exact ⟨done, hdone, substituteWithin_known hknown _⟩
      | none =>
          obtain ⟨hkey, -⟩ := Option.or_eq_none_iff.mp hknown
          have henter := henters hkey
          obtain ⟨n, hn⟩ := get?_of_lt_size hid
          cases hleaf : n.form.isLeaf with
          | true => exact ⟨done, hdone, substituteWithin_leaf hknown hn hleaf _⟩
          | false =>
              have hcheck : substitutable n.form = .ok () := by
                refine substitutable_of_replaceable ?_
                intro c hform
                have hc : p.form? id = some (.custom c) := by simp [form?, hn, hform]
                rcases hcustom henter hc with hnone | hreplaceable
                · simp [hform, Form.isLeaf, Form.dependencies, hnone] at hleaf
                · exact hreplaceable
              have hone : ∀ d ∈ n.dependencies, ∀ {done}, Idle done →
                  p.Untouched d (substituteWithin map fuel d done) := by
                intro d hd done hdone
                have hlt : d < id := hp.before hn d hd
                exact ih (Nat.lt_of_lt_of_le hlt (Nat.le_of_lt_succ hfuel)) (Nat.lt_trans hlt hid)
                  (.operand hreaches hn hd) (.operand henter hn hd) hdone
              obtain ⟨done', hdone', hall⟩ := substituteAll_untouched hone hdone
              refine ⟨done'.insert id id, hdone'.insert id, ?_⟩
              rw [substituteWithin_composite hknown hn hleaf,
                bind_of_ok (ofExcept_eq_ok.mpr ⟨hcheck, rfl⟩), bind_of_ok hall]
              dsimp only
              rw [bind_of_ok (rebuild_same p id n)]
              rfl

end Idle

/-- **Substitution leaves other expressions alone**, with folding or without it.
Take a pool that calls lead to, an expression, and a map that takes every key
among the expressions it is built from to itself.  Unless the substitution meets
a custom form with operands that forbids it, the result is the expression
itself, and the pool is what it was. -/
theorem substitute_untouched {p : Pool α} (hp : p.Reachable) {root : ExprId}
    (hroot : p.Present root) {map : Table ExprId ExprId}
    (hkeys : ∀ {id image : ExprId}, p.Reaches root id → map.get? id = some image → image = id)
    (hcustom : ∀ {id : ExprId} {c : CustomForm α}, p.Enters map root id →
      p.form? id = some (.custom c) → c.operands = [] ∨ c.replaceable = true) :
    substitute root map p = .ok root p := by
  have hempty : Idle .empty := fun h => by simp at h
  obtain ⟨done, -, hrun⟩ := substituteWithin_untouched hkeys hcustom hp.wellFormed
    (Nat.lt_succ_self root) hroot .root .root hempty
  exact bind_of_ok hrun

/-- A custom form that permits no substitution, its negation, and a number that
neither is made of. -/
def Sample.sealed : Pool Float :=
  performAll [.input "a" .integer .global,
    .custom { typeName := "probe", operands := [0], kind := .integer, replaceable := false },
    .unary .neg 1, .input "b" .integer .global] { folding := true }

/-- A key that is taken to itself keeps the substitution from the custom form,
and the other key is met nowhere. -/
theorem sealed_untouched : substitute 2 ⟨[(1, 1), (3, 0)]⟩ Sample.sealed = .ok 2 Sample.sealed := by
  have hp : Sample.sealed.Reachable := ⟨true, _, rfl⟩
  refine substitute_untouched hp (by decide +kernel) ?_ ?_
  · intro id image hreaches hkey
    have hle := hreaches.le hp.wellFormed
    have hentry := Table.mem_of_get? hkey
    simp only [List.mem_cons, Prod.mk.injEq, List.not_mem_nil, or_false] at hentry
    rcases hentry with ⟨rfl, rfl⟩ | ⟨rfl, -⟩
    · rfl
    · exact absurd hle (by decide)
  · intro id c henters hform
    obtain ⟨hreaches, hkey⟩ := henters.reaches
    have hle : id < 3 := Nat.lt_succ_of_le (hreaches.le hp.wellFormed)
    have hother : ∀ id < 3, (Table.mk [(1, 1), (3, 0)]).get? id = none →
        Sample.sealed.form? id = some (.input "a") ∨
          Sample.sealed.form? id = some (.unary .neg 1) := by
      decide +kernel
    rcases hother id hle hkey with h | h <;>
      · rw [h] at hform
        cases hform

end Pool

end SignalNet
