import SignalNet.Expr.Build
import SignalNet.Proofs.Computation

/-!
# Well-formed pools

A pool is *well formed* if every node in it is one that a construction could
have put there: structurally different nodes only, operands in front of the
nodes that use them, kind, scope and constancy of a node as its form demands,
and an index that leads from each node to its position (`Pool.WellFormed`).

A pool that *extends* another holds its nodes in the same places
(`Pool.Extends`).  What typing and scoping say about a form depends on the
operands of the form only (`Pool.infer_congr`, `Pool.joinScopes_congr`,
`Pool.staysConstant_congr`), so it stays true in every extension.

The step that everything rests on is `Pool.intern_grows`: adding a node that
the pool admits keeps the pool well formed and extends it.
-/

namespace SignalNet

/-- The forms that are built from operands.  All others carry their kind and
their scope themselves. -/
def Form.isComposite {α : Type} : Form α → Bool
  | .constant _ | .sensor _ _ | .input _ | .parameter _ | .clock _ | .relation _ _
  | .placeholder _ _ | .persisted _ => false
  | .custom c => !c.operands.isEmpty
  | _ => true

/-- The leaves whose value is fixed before a network runs. -/
def Form.isFixedLeaf {α : Type} : Form α → Bool
  | .constant _ | .parameter _ => true
  | _ => false

/-- Delays and edges, which look back at the previous cycle. -/
def Form.looksBack {α : Type} : Form α → Bool
  | .pre _ _ | .edge _ _ => true
  | _ => false

theorem Form.isComposite_of_isPure {α : Type} {form : Form α} (h : form.isPure = true) :
    form.isComposite = true := by
  cases form <;> simp_all [Form.isPure, Form.isLeaf, Form.dependencies, Form.isComposite]

theorem Form.isStateful_of_isPure {α : Type} {form : Form α} (h : form.isPure = true) :
    form.isStateful = false := by
  cases form <;> simp_all [Form.isPure, Form.isStateful]

section Canonical

variable {α : Type} [Scalar α]

/-- Sharing changes values inside a form, and nothing that does not depend on
them. -/
theorem Form.canonical_congr {β : Type} {f : Form α → β} (hf : ∀ form, f form.canonical = f form)
    {form form' : Form α} (h : form.canonical = form'.canonical) : f form = f form' := by
  rw [← hf form, h, hf]

@[simp] theorem Form.dependencies_canonical (form : Form α) :
    form.canonical.dependencies = form.dependencies := by
  cases form <;> rfl

theorem Form.canonical_dependencies {form form' : Form α}
    (h : form.canonical = form'.canonical) : form.dependencies = form'.dependencies :=
  canonical_congr dependencies_canonical h

theorem Form.canonical_isComposite {form form' : Form α}
    (h : form.canonical = form'.canonical) : form.isComposite = form'.isComposite :=
  canonical_congr (by intro g; cases g <;> rfl) h

theorem Form.canonical_isFixedLeaf {form form' : Form α}
    (h : form.canonical = form'.canonical) : form.isFixedLeaf = form'.isFixedLeaf :=
  canonical_congr (by intro g; cases g <;> rfl) h

theorem Form.canonical_isPure {form form' : Form α}
    (h : form.canonical = form'.canonical) : form.isPure = form'.isPure :=
  canonical_congr (by intro g; cases g <;> rfl) h

end Canonical

/-- What a leaf says about its node. -/
def Node.OfLeaf {α : Type} (n : Node α) : Prop :=
  match n.form with
  | .constant v => n.kind = v.kind ∧ n.scope = .global
  | .parameter _ => n.scope = .global
  | .clock _ => n.kind = .double ∧ n.scope = .global
  | .relation _ _ => n.kind = .transform ∧ n.scope = .global
  | .custom c => n.kind = c.kind ∧ n.scope = .global
  | _ => True

namespace Pool

variable {α : Type}

/-- The second pool holds everything that the first one holds, in the same
places. -/
structure Extends (p q : Pool α) : Prop where
  folding : q.folding = p.folding
  nodes : p.nodes <+: q.nodes
  placeholders : p.nextPlaceholder ≤ q.nextPlaceholder
  persists : p.persists <+: q.persists

theorem Extends.refl (p : Pool α) : p.Extends p :=
  ⟨rfl, List.prefix_rfl, Nat.le_refl _, List.prefix_rfl⟩

theorem Extends.trans {p q r : Pool α} (hpq : p.Extends q) (hqr : q.Extends r) : p.Extends r :=
  ⟨hqr.folding.trans hpq.folding, hpq.nodes.trans hqr.nodes,
    Nat.le_trans hpq.placeholders hqr.placeholders, hpq.persists.trans hqr.persists⟩

theorem lt_size_of_get? {p : Pool α} {i : ExprId} {n : Node α} (h : p.get? i = some n) :
    i < p.size :=
  (List.getElem?_eq_some_iff.mp h).1

theorem get?_of_lt_size {p : Pool α} {i : ExprId} (h : i < p.size) :
    ∃ n, p.get? i = some n :=
  ⟨p.nodes[i], List.getElem?_eq_getElem h⟩

/-- What holds of all nodes holds at every position. -/
theorem all_nodes {p : Pool α} {good : Node α → Bool} (h : p.nodes.all good = true) {i : ExprId}
    {n : Node α} (hn : p.get? i = some n) : good n = true :=
  List.all_eq_true.mp h n (List.mem_of_getElem? hn)

/-- Positions keep their nodes. -/
theorem Extends.get? {p q : Pool α} (h : p.Extends q) {i : ExprId} {n : Node α}
    (hn : p.get? i = some n) : q.get? i = some n := by
  obtain ⟨rest, hrest⟩ := h.nodes
  show q.nodes[i]? = some n
  rw [← hrest, List.getElem?_append_left (lt_size_of_get? hn)]
  exact hn

theorem Extends.get?_eq {p q : Pool α} (h : p.Extends q) {i : ExprId} (hi : i < p.size) :
    q.get? i = p.get? i := by
  obtain ⟨n, hn⟩ := get?_of_lt_size hi
  rw [h.get? hn, hn]

theorem Extends.size_le {p q : Pool α} (h : p.Extends q) : p.size ≤ q.size :=
  h.nodes.length_le

theorem node_eq_ok {p : Pool α} {i : ExprId} {n : Node α} :
    p.node i = .ok n ↔ p.get? i = some n := by
  unfold node
  cases p.get? i <;> simp

/-! ### What depends on the operands only -/

theorem kindOf_congr {p q : Pool α} {i : ExprId} (h : q.get? i = p.get? i) :
    q.kindOf i = p.kindOf i := by
  simp only [kindOf, node, h]

theorem scopeOf_congr {p q : Pool α} {i : ExprId} (h : q.get? i = p.get? i) :
    q.scopeOf i = p.scopeOf i := by
  simp only [scopeOf, node, h]

theorem isConstant_congr {p q : Pool α} {i : ExprId} (h : q.get? i = p.get? i) :
    q.isConstant i = p.isConstant i := by
  simp only [isConstant, h]

theorem literal?_congr {p q : Pool α} {i : ExprId} (h : q.get? i = p.get? i) :
    q.literal? i = p.literal? i := by
  simp only [literal?, form?, h]

/-- Literals stay literals. -/
theorem Extends.literal? {p q : Pool α} (h : p.Extends q) {id : ExprId} {c : Value α}
    (hc : p.literal? id = some c) : q.literal? id = some c := by
  obtain ⟨form, hform, -⟩ := Option.bind_eq_some_iff.mp hc
  obtain ⟨n, hn, -⟩ := Option.map_eq_some_iff.mp hform
  rw [literal?_congr (h.get?_eq (lt_size_of_get? hn)), hc]

theorem mapM_kindOf_congr {p q : Pool α} {ids : List ExprId}
    (h : ∀ d ∈ ids, q.get? d = p.get? d) : ids.mapM q.kindOf = ids.mapM p.kindOf :=
  Computing.mapM_congr fun d hd => kindOf_congr (h d hd)

theorem joinScopes_congr {p q : Pool α} {ids : List ExprId}
    (h : ∀ d ∈ ids, q.get? d = p.get? d) (scope : Scope) :
    q.joinScopes scope ids = p.joinScopes scope ids := by
  induction ids generalizing scope with
  | nil => rfl
  | cons d rest ih =>
      have hd := scopeOf_congr (h d List.mem_cons_self)
      have hrest := ih fun e he => h e (List.mem_cons_of_mem d he)
      simp only [joinScopes, hd, hrest]

/-- Scopes can be joined only for nodes that exist. -/
theorem lt_size_of_joinScopes {p : Pool α} {ids : List ExprId} {scope joined : Scope}
    (h : p.joinScopes scope ids = .ok joined) : ∀ d ∈ ids, d < p.size := by
  induction ids generalizing scope with
  | nil => simp
  | cons d rest ih =>
      unfold joinScopes at h
      cases hd : p.get? d with
      | none => simp [scopeOf, node, hd, Except.map] at h
      | some n =>
          simp only [scopeOf, node, hd, Except.map] at h
          split at h
          · intro e he
            rcases List.mem_cons.mp he with rfl | he
            · exact lt_size_of_get? hd
            · exact ih h e he
          · simp at h

theorem staysConstant_congr {p q : Pool α} {form : Form α}
    (h : ∀ d ∈ form.dependencies, q.get? d = p.get? d) :
    q.staysConstant form = p.staysConstant form := by
  have hall : form.dependencies.all q.isConstant = form.dependencies.all p.isConstant := by
    rw [Bool.eq_iff_iff, List.all_eq_true, List.all_eq_true]
    constructor
    · intro hq d hd
      rw [← isConstant_congr (h d hd)]
      exact hq d hd
    · intro hp d hd
      rw [isConstant_congr (h d hd)]
      exact hp d hd
  cases form <;> simp only [staysConstant, hall]

section Scalar

variable [Scalar α]

/-- The kind of a form depends on its operands only. -/
theorem infer_congr {p q : Pool α} {form : Form α}
    (h : ∀ d ∈ form.dependencies, q.get? d = p.get? d) : q.infer form = p.infer form := by
  cases form with
  | pack parts =>
      have hkinds : parts.mapM q.kindOf = parts.mapM p.kindOf := mapM_kindOf_congr h
      simp only [infer, hkinds]
  | compose c parts =>
      have hkinds : parts.mapM q.kindOf = parts.mapM p.kindOf := mapM_kindOf_congr h
      simp only [infer, hkinds]
  | custom c =>
      have hkinds : c.operands.mapM q.kindOf = c.operands.mapM p.kindOf := mapM_kindOf_congr h
      simp only [infer, hkinds]
  | limit x lo hi =>
      have hx := kindOf_congr (h x (by simp [Form.dependencies]))
      have hlo := h lo (by simp [Form.dependencies])
      have hhi := h hi (by simp [Form.dependencies])
      simp only [infer, hx, kindOf_congr hlo, kindOf_congr hhi, literal?_congr hlo,
        literal?_congr hhi]
  | _ =>
      simp only [Form.dependencies, List.mem_cons, List.not_mem_nil, or_false, forall_eq_or_imp,
        forall_eq, false_imp_iff, implies_true] at h
      simp only [infer, kindOf, node, h]

/-! ### Well-formedness -/

/-- What a node must satisfy to be added to a pool. -/
structure Admits (p : Pool α) (n : Node α) : Prop where
  before : ∀ d ∈ n.dependencies, d < p.size
  typed : n.form.isComposite = true → p.infer n.form = .ok n.kind
  joined : n.form.isComposite = true → p.joinScopes .global n.dependencies = .ok n.scope
  leaf : n.form.isComposite = false → n.OfLeaf
  constancy : n.constant = (n.form.isFixedLeaf || p.staysConstant n.form)

/-- The index that belongs to a list of nodes.  What was entered last stands in
front. -/
def listing (nodes : List (Node α)) : Table (Node α) ExprId :=
  ⟨(nodes.zipIdx.map fun e => (e.1.canonical, e.2)).reverse⟩

/-- Every node of the pool is one that a construction could have put there, and
the index knows it. -/
structure WellFormed (p : Pool α) : Prop where
  /-- Each node was entered into the index when it was added. -/
  indexed : p.positions = listing p.nodes
  /-- No two nodes are structurally equal. -/
  distinct : ∀ {i j : ExprId} {m n : Node α},
    p.get? i = some m → p.get? j = some n → m.canonical = n.canonical → i = j
  /-- Operands stand before the nodes that use them. -/
  before : ∀ {i : ExprId} {n : Node α}, p.get? i = some n → ∀ d ∈ n.dependencies, d < i
  /-- Kind, scope and constancy are those that the form demands. -/
  admitted : ∀ {i : ExprId} {n : Node α}, p.get? i = some n → p.Admits n
  /-- Different placeholders have different numbers. -/
  numbered : ∀ {i j number : Nat} {m n : Node α} {label label' : String},
    p.get? i = some m → p.get? j = some n → m.form = .placeholder number label →
    n.form = .placeholder number label' → i = j
  /-- Numbers of placeholders are given in order. -/
  counted : ∀ {i number : Nat} {n : Node α} {label : String},
    p.get? i = some n → n.form = .placeholder number label → number < p.nextPlaceholder
  /-- Values persist into scopes that their expressions enclose. -/
  persistent : ∀ entry ∈ p.persists, ∃ scope,
    p.scopeOf entry.source = .ok scope ∧ scope.encloses entry.target = true

theorem wellFormed_empty (folding : Bool) : ({ folding } : Pool α).WellFormed where
  indexed := rfl
  distinct h := by simp [get?] at h
  before h := by simp [get?] at h
  admitted h := by simp [get?] at h
  numbered h := by simp [get?] at h
  counted h := by simp [get?] at h
  persistent := by simp

/-- A pool that admits a node admits it after it has grown. -/
theorem Admits.extend {p q : Pool α} {n : Node α} (hn : p.Admits n) (h : p.Extends q) :
    q.Admits n := by
  have hsame : ∀ d ∈ n.form.dependencies, q.get? d = p.get? d :=
    fun d hd => h.get?_eq (hn.before d hd)
  refine ⟨?_, ?_, ?_, hn.leaf, ?_⟩
  · intro d hd
    exact Nat.lt_of_lt_of_le (hn.before d hd) h.size_le
  · intro hc
    rw [infer_congr hsame]
    exact hn.typed hc
  · intro hc
    have hjoin := joinScopes_congr hsame .global
    exact hjoin.trans (hn.joined hc)
  · rw [staysConstant_congr hsame]
    exact hn.constancy

/-- Structurally equal nodes agree in everything but the values inside. -/
theorem canonical_eq_parts {m n : Node α} (h : m.canonical = n.canonical) :
    m.form.canonical = n.form.canonical ∧ m.kind = n.kind ∧ m.scope = n.scope ∧
      m.constant = n.constant := by
  cases m
  cases n
  simpa [Node.canonical] using h

/-- Structurally equal forms are of one kind. -/
theorem infer_canonical {p : Pool α} {form form' : Form α} (h : form.canonical = form'.canonical) :
    p.infer form = p.infer form' := by
  refine Form.canonical_congr ?_ h
  intro g
  cases g with
  | pre x initial =>
      have hkind : initial.canonical.kind = initial.kind := Value.kind_map _ _
      simp only [Form.canonical, infer, hkind]
  | _ => rfl

theorem staysConstant_canonical {p : Pool α} {form form' : Form α}
    (h : form.canonical = form'.canonical) : p.staysConstant form = p.staysConstant form' :=
  Form.canonical_congr (by intro g; cases g <;> rfl) h

/-- Structurally equal literals have values of one kind. -/
theorem canonical_constant {form : Form α} {v : Value α}
    (h : (Form.constant v).canonical = form.canonical) :
    ∃ w, form = .constant w ∧ w.kind = v.kind := by
  cases form with
  | constant w =>
      have hvalue : v.canonical = w.canonical := by simpa [Form.canonical] using h
      have hkind : ∀ u : Value α, u.canonical.kind = u.kind := fun u => Value.kind_map _ u
      exact ⟨w, rfl, by rw [← hkind w, ← hvalue, hkind v]⟩
  | _ => cases h

/-- **A composite node is determined by its form**, and so is a literal. -/
theorem WellFormed.eq_of_canonical {p : Pool α} (hp : p.WellFormed) {i j : ExprId} {m n : Node α}
    (hm : p.get? i = some m) (hn : p.get? j = some n) (h : m.form.canonical = n.form.canonical)
    (hform : m.form.isComposite = true ∨ ∃ v, m.form = .constant v) : i = j := by
  have hmadmits := hp.admitted hm
  have hnadmits := hp.admitted hn
  have hconstant : m.constant = n.constant := by
    rw [hmadmits.constancy, hnadmits.constancy, Form.canonical_isFixedLeaf h,
      staysConstant_canonical h]
  have hrest : m.kind = n.kind ∧ m.scope = n.scope := by
    rcases hform with hcomposite | ⟨v, hv⟩
    · have hmtyped := hmadmits.typed hcomposite
      have hmjoined := hmadmits.joined hcomposite
      rw [infer_canonical h] at hmtyped
      rw [Node.dependencies, Form.canonical_dependencies h] at hmjoined
      rw [Form.canonical_isComposite h] at hcomposite
      exact ⟨Except.ok.inj (hmtyped.symm.trans (hnadmits.typed hcomposite)),
        Except.ok.inj (hmjoined.symm.trans (hnadmits.joined hcomposite))⟩
    · obtain ⟨w, hw, hkind⟩ := canonical_constant (hv ▸ h)
      have hmleaf := hmadmits.leaf (by rw [hv]; rfl)
      have hnleaf := hnadmits.leaf (by rw [hw]; rfl)
      simp only [Node.OfLeaf, hv] at hmleaf
      simp only [Node.OfLeaf, hw] at hnleaf
      exact ⟨by rw [hmleaf.1, hnleaf.1, hkind], hmleaf.2.trans hnleaf.2.symm⟩
  refine hp.distinct hm hn ?_
  simp only [Node.canonical, h, hconstant, hrest.1, hrest.2]

/-! ### The index -/

theorem mem_listing {nodes : List (Node α)} {k : Node α} {i : ExprId} :
    (k, i) ∈ (listing nodes).entries ↔ ∃ n, nodes[i]? = some n ∧ n.canonical = k := by
  simp only [listing, List.mem_reverse, List.mem_map, Prod.exists, Prod.mk.injEq,
    List.mk_mem_zipIdx_iff_getElem?]
  constructor
  · rintro ⟨n, j, hn, hk, rfl⟩
    exact ⟨n, hn, hk⟩
  · rintro ⟨n, hn, hk⟩
    exact ⟨n, i, hn, hk, rfl⟩

theorem listing_push (nodes : List (Node α)) (n : Node α) :
    listing (nodes ++ [n]) = ⟨(n.canonical, nodes.length) :: (listing nodes).entries⟩ := by
  simp [listing, List.zipIdx_append]

/-- **The index is exact.**  It leads from the representative of each stored node
to the position of that node, and knows nothing else. -/
theorem WellFormed.positions_eq_some_iff {p : Pool α} (hp : p.WellFormed) {k : Node α} {i : ExprId} :
    p.positions.get? k = some i ↔ ∃ n, p.get? i = some n ∧ n.canonical = k := by
  have hsound : ∀ {j}, p.positions.get? k = some j → ∃ n, p.get? j = some n ∧ n.canonical = k := by
    intro j hj
    have hmem := Table.mem_of_get? hj
    rw [hp.indexed] at hmem
    exact mem_listing.mp hmem
  refine ⟨hsound, ?_⟩
  rintro ⟨n, hn, hk⟩
  have hmem : (k, i) ∈ p.positions.entries := by
    rw [hp.indexed]
    exact mem_listing.mpr ⟨n, hn, hk⟩
  obtain ⟨j, hj⟩ := Table.get?_of_mem hmem
  -- Another entry with this key would belong to a structurally equal node.
  obtain ⟨m, hm, hkm⟩ := hsound hj
  rw [hj, hp.distinct hm hn (hkm.trans hk.symm)]

/-- The index of the pool finds exactly the nodes that are stored. -/
theorem WellFormed.find?_eq_some_iff {p : Pool α} (hp : p.WellFormed) {n : Node α} {i : ExprId} :
    p.find? n = some i ↔ ∃ m, p.get? i = some m ∧ m.canonical = n.canonical :=
  hp.positions_eq_some_iff

theorem WellFormed.find?_eq_none {p : Pool α} (hp : p.WellFormed) {n : Node α}
    (h : p.find? n = none) {i : ExprId} {m : Node α} (hm : p.get? i = some m) :
    m.canonical ≠ n.canonical := by
  intro hcanonical
  rw [hp.find?_eq_some_iff.mpr ⟨m, hm, hcanonical⟩] at h
  cases h

/-! ### Adding a node -/

/-- A placeholder that is about to be added has a number that was given out
and is not in use. -/
def AdmitsNumber (p : Pool α) (n : Node α) : Prop :=
  ∀ number label, n.form = .placeholder number label → number < p.nextPlaceholder ∧
    ∀ i m label', p.get? i = some m → m.form ≠ .placeholder number label'

theorem push_extends (p : Pool α) (n : Node α) : p.Extends (p.push n) :=
  ⟨rfl, List.prefix_append _ _, Nat.le_refl _, List.prefix_rfl⟩

theorem get?_push_self (p : Pool α) (n : Node α) : (p.push n).get? p.size = some n := by
  show (p.nodes ++ [n])[p.nodes.length]? = some n
  rw [List.getElem?_append_right (Nat.le_refl _), Nat.sub_self]
  rfl

theorem get?_push_cases {p : Pool α} {n m : Node α} {i : ExprId}
    (h : (p.push n).get? i = some m) : p.get? i = some m ∨ i = p.size ∧ m = n := by
  by_cases hi : i < p.size
  · rw [(push_extends p n).get?_eq hi] at h
    exact Or.inl h
  · have hlt := lt_size_of_get? h
    have hsize : (p.push n).size = p.size + 1 := by simp [push, size]
    rw [hsize] at hlt
    obtain rfl : i = p.size := Nat.eq_of_lt_succ_of_not_lt hlt hi
    rw [get?_push_self] at h
    exact Or.inr ⟨rfl, (Option.some.inj h).symm⟩

theorem WellFormed.push {p : Pool α} {n : Node α} (hp : p.WellFormed) (hn : p.Admits n)
    (hnumber : p.AdmitsNumber n) (hnew : p.find? n = none) : (p.push n).WellFormed where
  indexed := by
    show p.positions.insert n.canonical p.size = listing (p.nodes ++ [n])
    rw [listing_push, ← hp.indexed, Table.insert_of_get?_none hnew]
    rfl
  distinct := by
    intro i j a b ha hb hab
    rcases get?_push_cases ha with hold | ⟨rfl, rfl⟩ <;>
      rcases get?_push_cases hb with hold' | ⟨rfl, rfl⟩
    · exact hp.distinct hold hold' hab
    · exact absurd hab (hp.find?_eq_none hnew hold)
    · exact absurd hab.symm (hp.find?_eq_none hnew hold')
    · rfl
  before := by
    intro i a ha
    rcases get?_push_cases ha with hold | ⟨rfl, rfl⟩
    · exact hp.before hold
    · exact hn.before
  admitted := by
    intro i a ha
    rcases get?_push_cases ha with hold | ⟨rfl, rfl⟩
    · exact (hp.admitted hold).extend (push_extends p n)
    · exact hn.extend (push_extends p _)
  numbered := by
    intro i j number a b label label' ha hb hfa hfb
    rcases get?_push_cases ha with hold | ⟨rfl, rfl⟩ <;>
      rcases get?_push_cases hb with hold' | ⟨rfl, rfl⟩
    · exact hp.numbered hold hold' hfa hfb
    · exact absurd hfa ((hnumber _ _ hfb).2 _ _ _ hold)
    · exact absurd hfb ((hnumber _ _ hfa).2 _ _ _ hold')
    · rfl
  counted := by
    intro i number a label ha hfa
    rcases get?_push_cases ha with hold | ⟨rfl, rfl⟩
    · exact hp.counted hold hfa
    · exact (hnumber _ _ hfa).1
  persistent := by
    intro entry hentry
    obtain ⟨scope, hscope, hencloses⟩ := hp.persistent entry hentry
    refine ⟨scope, ?_, hencloses⟩
    cases hsource : p.get? entry.source with
    | none => simp [scopeOf, node, hsource, Except.map] at hscope
    | some m =>
        have hlater := (push_extends p n).get? hsource
        rw [scopeOf_congr (hlater.trans hsource.symm)]
        exact hscope

/-- A well-formed pool gives way to a well-formed pool that extends it. -/
def Grows (p q : Pool α) : Prop :=
  p.WellFormed → q.WellFormed ∧ p.Extends q

theorem grows_refl (p : Pool α) : p.Grows p :=
  fun hp => ⟨hp, Extends.refl p⟩

theorem grows_trans (p q r : Pool α) (hpq : p.Grows q) (hqr : q.Grows r) : p.Grows r := by
  intro hp
  obtain ⟨hq, hext⟩ := hpq hp
  obtain ⟨hr, hext'⟩ := hqr hq
  exact ⟨hr, hext.trans hext'⟩

/-- Interning never fails. -/
theorem intern_total (n : Node α) (p : Pool α) : ∃ id q, intern n p = .ok id q := by
  unfold intern
  split <;> exact ⟨_, _, rfl⟩

/-- Interning returns a position that holds a structurally equal node. -/
theorem intern_eq_ok {p q : Pool α} {n : Node α} {id : ExprId} (hp : p.WellFormed)
    (h : intern n p = .ok id q) :
    ∃ m, q.get? id = some m ∧ m.canonical = n.canonical := by
  unfold intern at h
  cases hfind : p.find? n with
  | some i =>
      rw [hfind] at h
      cases h
      exact hp.find?_eq_some_iff.mp hfind
  | none =>
      rw [hfind] at h
      cases h
      exact ⟨n, get?_push_self p n, rfl⟩

/-- Adding a node that the pool admits keeps the pool well formed and changes
none of the nodes before it. -/
theorem intern_grows {p : Pool α} {n : Node α} (hn : p.WellFormed → p.Admits n)
    (hnumber : p.WellFormed → p.AdmitsNumber n) :
    p.Grows (Computing.finalState (intern n p)) := by
  intro hp
  unfold intern
  cases hfind : p.find? n with
  | some i => exact grows_refl p hp
  | none => exact ⟨hp.push (hn hp) (hnumber hp) hfind, push_extends p n⟩

end Scalar

end Pool

end SignalNet
