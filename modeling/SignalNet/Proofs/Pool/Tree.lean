import SignalNet.Proofs.Pool.Replay

/-!
# Expressions as trees

A pool shares expressions, so they form a graph.  Written out, an expression is
a *tree*: its form, and the trees of its operands (`Pool.tree?`).  Values that
sharing identifies are the same in a tree.

A tree says everything about an expression: different expressions of a
well-formed pool have different trees (`Pool.tree?_injective`), and an
expression keeps its tree when the pool grows (`Pool.Extends.tree?`).  So what
is done to expressions, by their positions, can be said of trees.

`Tree.replace` puts trees in the place of others, all at once and from the root
downwards.
-/

namespace SignalNet

variable {α : Type}

/-- The form without its operands. -/
def Form.shape : Form α → Form α
  | unary op _ => unary op 0
  | binary op _ _ => binary op 0 0
  | compare op _ _ => compare op 0 0
  | select _ _ _ => select 0 0 0
  | limit _ _ _ => limit 0 0 0
  | smooth _ tau => smooth 0 tau
  | rateLimit _ rate => rateLimit 0 rate
  | pre _ initial => pre 0 initial
  | edge _ rising => edge 0 rising
  | pack _ => pack []
  | index _ position => index 0 position
  | compose c _ => compose c []
  | custom c => custom { c with operands := [] }
  | form => form

/-- A form consists of its shape and its operands. -/
theorem Form.eq_of_shape {form form' : Form α} (hshape : form.shape = form'.shape)
    (hoperands : form.dependencies = form'.dependencies) : form = form' := by
  cases form <;> cases form' <;> simp_all [shape, dependencies]
  case custom.custom c c' =>
    cases c
    cases c'
    simp_all

/-- A form with operands is composite. -/
theorem Form.isComposite_of_not_isLeaf {form : Form α} (h : form.isLeaf = false) :
    form.isComposite = true := by
  cases form <;> simp_all [isLeaf, isComposite, dependencies]

/-- An expression written out. -/
inductive Tree (α : Type)
  | leaf (node : Node α)
  | node (form : Form α) (operands : List (Tree α))

namespace Tree

variable [Scalar α]

mutual

/-- Trees are compared node by node. -/
def decEq : (s t : Tree α) → Decidable (s = t)
  | leaf m, leaf n => decidable_of_iff (m = n) (by simp)
  | leaf _, node _ _ => isFalse (by simp)
  | node _ _, leaf _ => isFalse (by simp)
  | node form ss, node form' ts =>
    let _ := decEqAll ss ts
    decidable_of_iff (form = form' ∧ ss = ts) (by simp)

def decEqAll : (ss ts : List (Tree α)) → Decidable (ss = ts)
  | [], [] => isTrue rfl
  | [], _ :: _ => isFalse (by simp)
  | _ :: _, [] => isFalse (by simp)
  | s :: ss, t :: ts =>
    let _ := decEq s t
    let _ := decEqAll ss ts
    decidable_of_iff (s = t ∧ ss = ts) (by simp)

end

instance : DecidableEq (Tree α) :=
  decEq

mutual

/-- Replace the outermost subtrees that have an image.  Images are left as they
are. -/
def replace (images : Table (Tree α) (Tree α)) : Tree α → Tree α
  | leaf n => (images.get? (leaf n)).getD (leaf n)
  | node form operands =>
    (images.get? (node form operands)).getD (node form (replaceAll images operands))

def replaceAll (images : Table (Tree α) (Tree α)) : List (Tree α) → List (Tree α)
  | [] => []
  | t :: rest => replace images t :: replaceAll images rest

end

theorem replaceAll_eq_map (images : Table (Tree α) (Tree α)) (ts : List (Tree α)) :
    replaceAll images ts = ts.map (replace images) := by
  induction ts with
  | nil => rfl
  | cons t rest ih => rw [replaceAll, ih, List.map_cons]

theorem replace_image {images : Table (Tree α) (Tree α)} {t image : Tree α}
    (h : images.get? t = some image) : t.replace images = image := by
  cases t <;> simp [replace, h]

theorem replace_leaf {images : Table (Tree α) (Tree α)} {n : Node α}
    (h : images.get? (leaf n) = none) : (leaf n).replace images = leaf n := by
  simp [replace, h]

theorem replace_node {images : Table (Tree α) (Tree α)} {form : Form α} {operands : List (Tree α)}
    (h : images.get? (node form operands) = none) :
    (node form operands).replace images = node form (operands.map (replace images)) := by
  simp [replace, h, replaceAll_eq_map]

end Tree

namespace Pool

open Computing

variable [Scalar α]

/-! ### The trees of a pool -/

/-- The tree of an expression, at most `fuel` operands deep. -/
def treeWithin (p : Pool α) : (fuel : Nat) → ExprId → Option (Tree α)
  | 0, _ => none
  | fuel + 1, id =>
    match p.get? id with
    | none => none
    | some n =>
      if n.form.isLeaf then some (.leaf n.canonical)
      else (n.dependencies.mapM (p.treeWithin fuel)).map (.node n.form.canonical.shape)

/-- The tree of an expression.  Operands stand before the nodes that use them,
so no chain of operands is longer than the position of the expression. -/
def tree? (p : Pool α) (id : ExprId) : Option (Tree α) :=
  p.treeWithin (id + 1) id

/-- Neither more fuel nor more nodes change the tree of an expression. -/
theorem treeWithin_eq {p q : Pool α} (hp : p.WellFormed) (hq : p.Extends q) {id fuel fuel' : Nat}
    (hid : p.Present id) (hfuel : id < fuel) (hfuel' : id < fuel') :
    q.treeWithin fuel' id = p.treeWithin fuel id := by
  induction fuel generalizing id fuel' with
  | zero => omega
  | succ fuel ih =>
      cases fuel' with
      | zero => omega
      | succ fuel' =>
          obtain ⟨n, hn⟩ := get?_of_lt_size hid
          have hoperands : n.dependencies.mapM (q.treeWithin fuel') =
              n.dependencies.mapM (p.treeWithin fuel) := by
            apply mapM_congr
            intro d hd
            have hlt : d < id := hp.before hn d hd
            exact ih (Nat.lt_trans hlt hid) (Nat.lt_of_lt_of_le hlt (Nat.le_of_lt_succ hfuel))
              (Nat.lt_of_lt_of_le hlt (Nat.le_of_lt_succ hfuel'))
          simp only [treeWithin, hn, hq.get? hn, hoperands]

/-- **An expression keeps its tree.** -/
theorem Extends.tree? {p q : Pool α} (hq : p.Extends q) (hp : p.WellFormed) {id : ExprId}
    (hid : p.Present id) : q.tree? id = p.tree? id :=
  treeWithin_eq hp hq hid (Nat.lt_succ_self id) (Nat.lt_succ_self id)

theorem tree?_leaf {p : Pool α} {id : ExprId} {n : Node α} (hn : p.get? id = some n)
    (hleaf : n.form.isLeaf = true) : p.tree? id = some (.leaf n.canonical) := by
  simp [tree?, treeWithin, hn, hleaf]

/-- The tree of a composite expression is made of the trees of its operands. -/
theorem tree?_node {p : Pool α} (hp : p.WellFormed) {id : ExprId} {n : Node α}
    (hn : p.get? id = some n) (hleaf : n.form.isLeaf = false) {t : Tree α} :
    p.tree? id = some t ↔ ∃ ts, t = .node n.form.canonical.shape ts ∧
      List.Forall₂ (fun d t => p.tree? d = some t) n.dependencies ts := by
  have hoperands : n.dependencies.mapM (p.treeWithin id) = n.dependencies.mapM p.tree? := by
    apply mapM_congr
    intro d hd
    have hlt : d < id := hp.before hn d hd
    have hdp := Nat.lt_trans hlt (lt_size_of_get? hn)
    exact treeWithin_eq hp (.refl p) hdp (Nat.lt_succ_self d) hlt
  have htree : p.tree? id = (n.dependencies.mapM p.tree?).map (.node n.form.canonical.shape) := by
    rw [← hoperands]
    simp [tree?, treeWithin, hn, hleaf]
  rw [htree, Option.map_eq_some_iff]
  simp only [mapM_some_iff_forall₂]
  constructor
  · rintro ⟨ts, hts, rfl⟩
    exact ⟨ts, rfl, hts⟩
  · rintro ⟨ts, rfl, hts⟩
    exact ⟨ts, hts, rfl⟩

/-- An expression has a tree exactly if it exists. -/
theorem exists_tree? {p : Pool α} (hp : p.WellFormed) {id : ExprId} :
    (∃ t, p.tree? id = some t) ↔ p.Present id := by
  constructor
  · rintro ⟨t, ht⟩
    cases hn : p.get? id with
    | none => simp [tree?, treeWithin, hn] at ht
    | some n => exact lt_size_of_get? hn
  · induction id using Nat.strongRecOn with
    | ind id ih =>
      intro hid
      obtain ⟨n, hn⟩ := get?_of_lt_size hid
      cases hleaf : n.form.isLeaf with
      | true => exact ⟨_, tree?_leaf hn hleaf⟩
      | false =>
          have hoperands : ∀ d ∈ n.dependencies, ∃ t, p.tree? d = some t := by
            intro d hd
            have hlt : d < id := hp.before hn d hd
            exact ih d hlt (Nat.lt_trans hlt hid)
          obtain ⟨ts, hts⟩ := exists_forall₂_of_forall hoperands
          exact ⟨_, (tree?_node hp hn hleaf).mpr ⟨ts, rfl, hts⟩⟩

/-- **Different expressions have different trees**, since expressions that are
structurally equal are shared. -/
theorem tree?_injective {p : Pool α} (hp : p.WellFormed) {i j : ExprId} {t : Tree α}
    (hi : p.tree? i = some t) (hj : p.tree? j = some t) : i = j := by
  induction i using Nat.strongRecOn generalizing j t with
  | ind i ih =>
    obtain ⟨m, hm⟩ := get?_of_lt_size ((exists_tree? hp).mp ⟨t, hi⟩)
    obtain ⟨n, hn⟩ := get?_of_lt_size ((exists_tree? hp).mp ⟨t, hj⟩)
    cases hmleaf : m.form.isLeaf with
    | true =>
        rw [tree?_leaf hm hmleaf] at hi
        cases hnleaf : n.form.isLeaf with
        | true =>
            rw [tree?_leaf hn hnleaf, ← hi] at hj
            simp only [Option.some.injEq, Tree.leaf.injEq] at hj
            exact hp.distinct hm hn hj.symm
        | false =>
            obtain ⟨_, rfl, -⟩ := (tree?_node hp hn hnleaf).mp hj
            cases hi
    | false =>
        obtain ⟨ts, rfl, hts⟩ := (tree?_node hp hm hmleaf).mp hi
        cases hnleaf : n.form.isLeaf with
        | true =>
            rw [tree?_leaf hn hnleaf] at hj
            cases hj
        | false =>
            obtain ⟨_, hsame, hts'⟩ := (tree?_node hp hn hnleaf).mp hj
            simp only [Tree.node.injEq] at hsame
            obtain ⟨hshape, rfl⟩ := hsame
            have hoperands : m.dependencies = n.dependencies := by
              refine forall₂_unique hts hts' ?_
              intro d hd d' s hs hs'
              exact ih d (hp.before hm d hd) hs hs'
            have hform : m.form.canonical = n.form.canonical := by
              refine Form.eq_of_shape hshape ?_
              simpa [Node.dependencies] using hoperands
            have hcomposite := Form.isComposite_of_not_isLeaf hmleaf
            exact hp.eq_of_canonical hm hn hform (Or.inl hcomposite)

/-! ### Trees in place of expressions -/

/-- A table of expressions, written out. -/
def images (p : Pool α) (map : Table ExprId ExprId) : Table (Tree α) (Tree α) :=
  ⟨map.entries.filterMap fun e => (p.tree? e.1).bind fun s => (p.tree? e.2).map fun t => (s, t)⟩

/-- Looking up the tree of an expression amounts to looking up the expression. -/
theorem get?_images {p : Pool α} (hp : p.WellFormed) {map : Table ExprId ExprId} {id : ExprId}
    {t : Tree α} (ht : p.tree? id = some t)
    (hmap : ∀ image, map.get? id = some image → p.Present image) :
    (p.images map).get? t = (map.get? id).bind p.tree? := by
  obtain ⟨entries⟩ := map
  induction entries with
  | nil => rfl
  | cons e rest ih =>
      by_cases he : e.1 = id
      · have hget : (Table.mk (e :: rest)).get? id = some e.2 := by simp [Table.get?, he]
        obtain ⟨s, hs⟩ := (exists_tree? hp).mpr (hmap e.2 hget)
        subst he
        simp [images, Table.get?, ht, hs]
      · have hget : (Table.mk (e :: rest)).get? id = (Table.mk rest).get? id := by
          simp [Table.get?, he]
        -- Another key has another tree.
        have hother : ∀ s, p.tree? e.1 = some s → s ≠ t := by
          rintro s hs rfl
          exact he (tree?_injective hp hs ht)
        have himages : (p.images ⟨e :: rest⟩).get? t = (p.images ⟨rest⟩).get? t := by
          cases hs : p.tree? e.1 with
          | none => simp [images, hs]
          | some s =>
              have hne := hother s hs
              cases hu : p.tree? e.2 with
              | none => simp [images, hs, hu]
              | some u => simp [images, hs, hu, Table.get?, hne]
        rw [hget, himages]
        rw [hget] at hmap
        exact ih hmap

end Pool

end SignalNet
