import SignalNet.Proofs.Folding.Refinement

/-!
# Scripts of construction calls

A script is a list of construction calls in which operands are named by the
numbers of earlier results, so that one and the same script can be run on a
pool that folds and on one that does not (`Pool.runScript`).  The two runs
build different expressions, at different positions, but result by result the
first refines the second, in every reading (`Pool.runScript_refines`).

The one rewrite that a reading may object to is that of edges: folding takes
an edge of a literal for something that never occurs.
-/

namespace SignalNet.Pool

open Computing

variable {α ι : Type} [Scalar α]

/-- The call that a script makes when it has the given results: numbers of
results become positions.  Scripts are about integers and booleans, and have
no other calls. -/
def Call.on? (results : List ExprId) : Call α → Option (Call α)
  | .constant v => some (.constant v)
  | .sensor name kind => some (.sensor name kind)
  | .deviceSensor host device name kind => some (.deviceSensor host device name kind)
  | .input name kind scope => some (.input name kind scope)
  | .unary op x => do return .unary op (← results[x]?)
  | .binary op x y => do return .binary op (← results[x]?) (← results[y]?)
  | .compare op x y => do return .compare op (← results[x]?) (← results[y]?)
  | .select c t f => do return .select (← results[c]?) (← results[t]?) (← results[f]?)
  | .limit x lo hi => do return .limit (← results[x]?) (← results[lo]?) (← results[hi]?)
  | .all terms => (terms.mapM (results[·]?)).map .all
  | .any terms => (terms.mapM (results[·]?)).map .any
  | .pre x initial => do return .pre (← results[x]?) initial
  | .edge x rising => do return .edge (← results[x]?) rising
  | _ => none

/-- The leaves are integers or booleans, and the operators stay among them. -/
def Call.isDiscrete : Call α → Bool
  | .constant v => v.kind.isDiscrete
  | .sensor _ kind | .deviceSensor _ _ _ kind | .input _ kind _ => kind.isDiscrete
  | .unary op _ => op.isDiscrete
  | .binary op _ _ => op.isDiscrete
  | .compare _ _ _ | .select _ _ _ | .limit _ _ _ | .all _ | .any _ | .pre _ _ | .edge _ _ => true
  | _ => false

/-- Make the calls of a script one after another, and list the results. -/
def runScript : List (Call α) → (results : List ExprId) → Building α (List ExprId)
  | [], results => pure results
  | c :: rest, results =>
    match c.on? results with
    | none => throw (.unknownExpr results.length)
    | some call => do
      let id ← call.run
      runScript rest (results ++ [id])

/-- A pool of integers and booleans that constructions have made. -/
structure Sane (p : Pool α) : Prop where
  wellFormed : p.WellFormed
  discrete : p.Discrete

/-! ### Single constructions -/

/-- A construction of integers and booleans. -/
def Tidy (x : Building α ExprId) : Prop :=
  ∀ {p q : Pool α} {id : ExprId}, p.Sane → x p = .ok id q → q.Sane ∧ p.Extends q

theorem tidy_intern {n : Node α} (hsound : Sound (intern n)) (hform : n.form.isDiscrete = true)
    (hkind : n.kind.isDiscrete = true) : Tidy (intern n) := by
  intro p q id hp h
  obtain ⟨hq, hpq⟩ := hsound.grown hp.wellFormed h
  exact ⟨⟨hq, hp.discrete.intern h hform hkind⟩, hpq⟩

theorem tidy_build {form : Form α} (hform : form.isDiscrete = true) : Tidy (build form) := by
  intro p q id hp h
  obtain ⟨hq, hpq⟩ := (build_sound form).grown hp.wellFormed h
  exact ⟨⟨hq, Discrete.buildWithin hp.wellFormed hp.discrete hform h⟩, hpq⟩

theorem tidy_foldlM {op : BinaryOp} (hop : op.isDiscrete = true) (terms : List ExprId)
    (start : ExprId) : Tidy (α := α) (terms.foldlM (binary op) start) := by
  induction terms generalizing start with
  | nil =>
      intro p q id hp h
      obtain ⟨-, rfl⟩ := pure_eq_ok.mp h
      exact ⟨hp, Extends.refl p⟩
  | cons t rest ih =>
      intro p q id hp h
      rw [List.foldlM_cons] at h
      obtain ⟨a, p₁, hfirst, hrest⟩ := bind_eq_ok.mp h
      have hform : (Form.binary (α := α) op start t).isDiscrete = true := hop
      obtain ⟨hp₁, hext₁⟩ := tidy_build hform hp hfirst
      obtain ⟨hq, hext⟩ := ih a hp₁ hrest
      exact ⟨hq, hext₁.trans hext⟩

theorem tidy_constant {c : Value α} (hc : c.kind.isDiscrete = true) : Tidy (constant c) :=
  tidy_intern (constant_sound c) rfl hc

/-- Joining terms starts at a literal. -/
theorem tidy_join {op : BinaryOp} (hop : op.isDiscrete = true) {c : Value α}
    (hc : c.kind.isDiscrete = true) (terms : List ExprId) :
    Tidy (constant c >>= fun first => terms.foldlM (binary op) first) := by
  intro p q id hp h
  obtain ⟨first, p₁, hfirst, hrest⟩ := bind_eq_ok.mp h
  obtain ⟨hp₁, hext₁⟩ := tidy_constant hc hp hfirst
  obtain ⟨hq, hext⟩ := tidy_foldlM hop terms first hp₁ hrest
  exact ⟨hq, hext₁.trans hext⟩

/-- Every call of a script stays among integers and booleans. -/
theorem Call.run_tidy {c : Call α} (hc : c.isDiscrete = true) : Tidy c.run := by
  cases c with
  | constant v => exact tidy_constant hc
  | sensor name kind => exact tidy_intern (sensor_sound name kind) rfl hc
  | deviceSensor host device name kind =>
      exact tidy_intern (deviceSensor_sound host device name kind) rfl hc
  | input name kind scope => exact tidy_intern (input_sound name kind scope) rfl hc
  | unary op x =>
      have hform : (Form.unary (α := α) op x).isDiscrete = true := hc
      intro p q id hp h
      exact tidy_build hform hp h
  | binary op x y =>
      have hform : (Form.binary (α := α) op x y).isDiscrete = true := hc
      intro p q id hp h
      exact tidy_build hform hp h
  | compare op x y => exact tidy_build rfl
  | select c t f => exact tidy_build rfl
  | limit x lo hi => exact tidy_build rfl
  | all terms => exact tidy_join rfl rfl terms
  | any terms => exact tidy_join rfl rfl terms
  | pre x initial => exact tidy_build rfl
  | edge x rising => exact tidy_build rfl
  | _ => cases hc

omit [Scalar α] in
/-- A call of a script makes a call of the same sort. -/
theorem Call.on?_isDiscrete {c d : Call α} {results : List ExprId} (hc : c.isDiscrete = true)
    (h : c.on? results = some d) : d.isDiscrete = true := by
  cases c <;> simp only [Call.on?, Option.bind_eq_bind, Option.bind_eq_some_iff,
    Option.map_eq_some_iff, Option.some.injEq, Option.pure_def] at h <;> grind [Call.isDiscrete]

/-! ### Running a script -/

/-- The parts of a run that has succeeded. -/
theorem runScript_cons {c : Call α} {rest : List (Call α)} {results ids : List ExprId}
    {p r : Pool α} (h : runScript (c :: rest) results p = .ok ids r) :
    ∃ d id q, c.on? results = some d ∧ d.run p = .ok id q ∧
      runScript rest (results ++ [id]) q = .ok ids r := by
  unfold runScript at h
  cases hd : c.on? results with
  | none => simp [hd] at h
  | some d =>
      simp only [hd] at h
      obtain ⟨id, q, hrun, hrest⟩ := bind_eq_ok.mp h
      exact ⟨d, id, q, rfl, hrun, hrest⟩

/-- A script has one result for each call. -/
theorem runScript_length {script : List (Call α)} {results ids : List ExprId} {p q : Pool α}
    (h : runScript script results p = .ok ids q) :
    ids.length = results.length + script.length := by
  induction script generalizing results p with
  | nil =>
      obtain ⟨rfl, -⟩ := pure_eq_ok.mp h
      rfl
  | cons c rest ih =>
      obtain ⟨d, id, p₁, -, -, hrest⟩ := runScript_cons h
      rw [ih hrest, List.length_append, List.length_cons, List.length_cons, List.length_nil]
      omega

/-- A script stays among integers and booleans, and does not take results
back. -/
theorem runScript_tidy {script : List (Call α)} (hscript : ∀ c ∈ script, c.isDiscrete = true)
    {results ids : List ExprId} {p q : Pool α} (hp : p.Sane)
    (h : runScript script results p = .ok ids q) : q.Sane ∧ p.Extends q ∧ results <+: ids := by
  induction script generalizing results p with
  | nil =>
      obtain ⟨rfl, rfl⟩ := pure_eq_ok.mp h
      exact ⟨hp, Extends.refl p, List.prefix_rfl⟩
  | cons c rest ih =>
      obtain ⟨d, id, p₁, hd, hrun, hrest⟩ := runScript_cons h
      obtain ⟨hp₁, hext₁⟩ := Call.run_tidy (Call.on?_isDiscrete (hscript c (by simp)) hd) hp hrun
      obtain ⟨hq, hext, hprefix⟩ := ih (fun c hc => hscript c (by simp [hc])) hp₁ hrest
      exact ⟨hq, hext₁.trans hext, (List.prefix_append results [id]).trans hprefix⟩

theorem sane_empty (folding : Bool) : ({ folding } : Pool α).Sane :=
  ⟨wellFormed_empty folding, discrete_empty folding⟩

/-! ### Two runs side by side -/

section Pairs

variable {ρ : Reading α ι} {trace trace' : ExprId → Trace α ι}

/-- An expression of the plain pool, and the one of the folding pool that
refines it. -/
abbrev Pair (trace' trace : ExprId → Trace α ι) (id' id : ExprId) : Prop :=
  (trace' id').Refines (trace id)

/-- The same leaf on both pools. -/
theorem intern_pair {n n' : Node α} {p p' q q' : Pool α} (hp : p.WellFormed)
    (hp' : p'.WellFormed) {id id' : ExprId} (h : intern n p = .ok id q) (h' : intern n' p' = .ok id' q') (htraces : q.Traces ρ trace)
    (htraces' : q'.Traces ρ trace') (hrigid : Rigid n.form)
    (hdiscrete : n.form.isDiscrete = true) (hleaf : n.form.dependencies = [])
    (hform : n'.form = n.form) (hkind : n'.kind = n.kind) : Pair trace' trace id' id := by
  obtain ⟨m, hm, hmform, hmkind⟩ := intern_rigid hp h hrigid
  obtain ⟨m', hm', hmform', hmkind'⟩ := intern_rigid hp' h' (hform ▸ hrigid)
  intro i v hv
  rw [htraces'.node hm', hmform', hmkind', hform, hkind] at hv
  rw [htraces.node hm, hmform, hmkind]
  have hsame : n.form.withDependencies? [] = some n.form := by
    cases hn : n.form <;> simp_all [Form.withDependencies?, Form.isLeaf, Form.isDiscrete,
      Form.dependencies]
  have hoperands : List.Forall₂ (Pair trace' trace) n.form.dependencies [] := by
    rw [hleaf]
    exact .nil
  exact Form.trace_withDependencies hdiscrete hsame hoperands i v hv

/-- Without folding an expression is read as its form. -/
theorem build_plain {form : Form α} {p q : Pool α} {id : ExprId} (hp : p.Sane)
    (hfolding : p.folding = false) (h : build form p = .ok id q) (htraces : q.Traces ρ trace)
    {kind : Kind} : (trace id).Refines (form.trace ρ kind trace) := by
  obtain ⟨scope, k, -, hk, hintern⟩ := buildWithin_interns hfolding h
  have hgives := infer_gives hk
  intro i v hv
  obtain ⟨m, hm, hform, -⟩ := intern_rigid hp.wellFormed hintern (hp.discrete.rigid hgives)
  rw [htraces.node hm, hform] at hv
  exact Form.trace_of_gives hgives hv

/-- The same form on both pools. -/
theorem build_pair (hlaws : Scalar.SignLaws α) {form form' : Form α} {p p' q q' : Pool α}
    {id id' : ExprId} (hp : p.Sane) (hp' : p'.Sane) (hfolding : p'.folding = false)
    (hform : form.isDiscrete = true) (hform' : form'.isDiscrete = true)
    (h : build form p = .ok id q) (h' : build form' p' = .ok id' q')
    (htraces : q.Traces ρ trace) (htraces' : q'.Traces ρ trace') (hcalm : Calm ρ p form)
    (hsame : form'.withDependencies? form.dependencies = some form)
    (hoperands : List.Forall₂ (Pair trace' trace) form'.dependencies form.dependencies) :
    Pair trace' trace id' id := by
  have hplain : (trace' id').Refines (form'.trace ρ .boolean trace') :=
    build_plain hp' hfolding h' htraces'
  have hforms : (form'.trace ρ .boolean trace').Refines (form.trace ρ .boolean trace) :=
    Form.trace_withDependencies hform' hsame hoperands
  have hfolded : (form.trace ρ .boolean trace).Refines (trace id) :=
    buildWithin_refines hlaws hp.wellFormed hp.discrete hform h htraces hcalm
  exact hplain.trans (hforms.trans hfolded)

/-- Joining terms on both pools. -/
theorem foldlM_pair (hlaws : Scalar.SignLaws α) {op : BinaryOp} (hop : op.isDiscrete = true)
    {terms terms' : List ExprId} {start start' : ExprId} {p p' q q' : Pool α} {id id' : ExprId}
    (hterms : List.Forall₂ (Pair trace' trace) terms' terms)
    (hstart : Pair trace' trace start' start) (hp : p.Sane) (hp' : p'.Sane)
    (hfolding : p'.folding = false) (h : terms.foldlM (binary op) start p = .ok id q)
    (h' : terms'.foldlM (binary op) start' p' = .ok id' q') (htraces : q.Traces ρ trace)
    (htraces' : q'.Traces ρ trace') : Pair trace' trace id' id := by
  induction hterms generalizing start start' p p' with
  | nil =>
      obtain ⟨rfl, -⟩ := pure_eq_ok.mp h
      obtain ⟨rfl, -⟩ := pure_eq_ok.mp h'
      exact hstart
  | @cons t' t rest' rest ht _ ih =>
      rw [List.foldlM_cons] at h h'
      obtain ⟨a, p₁, hfirst, hrest⟩ := bind_eq_ok.mp h
      obtain ⟨a', p₁', hfirst', hrest'⟩ := bind_eq_ok.mp h'
      have hform : (Form.binary (α := α) op start t).isDiscrete = true := hop
      have hform' : (Form.binary (α := α) op start' t').isDiscrete = true := hop
      obtain ⟨hp₁, -⟩ := tidy_build hform hp hfirst
      obtain ⟨hp₁', hext'⟩ := tidy_build hform' hp' hfirst'
      obtain ⟨-, hlater⟩ := tidy_foldlM hop rest a hp₁ hrest
      obtain ⟨-, hlater'⟩ := tidy_foldlM hop rest' a' hp₁' hrest'
      have hjoined : Pair trace' trace a' a :=
        build_pair hlaws hp hp' hfolding hform hform' hfirst hfirst' (htraces.of_extends hlater)
          (htraces'.of_extends hlater') trivial rfl (.cons hstart (.cons ht .nil))
      exact ih hjoined hp₁ hp₁' (hext'.folding.trans hfolding) hrest hrest'

theorem join_pair (hlaws : Scalar.SignLaws α) {op : BinaryOp} (hop : op.isDiscrete = true)
    {c : Value α} (hc : c.kind.isDiscrete = true) {terms terms' : List ExprId}
    {p p' q q' : Pool α} {id id' : ExprId}
    (hterms : List.Forall₂ (Pair trace' trace) terms' terms) (hp : p.Sane) (hp' : p'.Sane)
    (hfolding : p'.folding = false)
    (h : (constant c >>= fun first => terms.foldlM (binary op) first) p = .ok id q)
    (h' : (constant c >>= fun first => terms'.foldlM (binary op) first) p' = .ok id' q')
    (htraces : q.Traces ρ trace) (htraces' : q'.Traces ρ trace') : Pair trace' trace id' id := by
  obtain ⟨first, p₁, hfirst, hrest⟩ := bind_eq_ok.mp h
  obtain ⟨first', p₁', hfirst', hrest'⟩ := bind_eq_ok.mp h'
  obtain ⟨hp₁, -⟩ := tidy_constant hc hp hfirst
  obtain ⟨hp₁', hext'⟩ := tidy_constant hc hp' hfirst'
  obtain ⟨-, hlater⟩ := tidy_foldlM hop terms first hp₁ hrest
  obtain ⟨-, hlater'⟩ := tidy_foldlM hop terms' first' hp₁' hrest'
  have hstart : Pair trace' trace first' first :=
    intern_pair hp.wellFormed hp'.wellFormed hfirst hfirst' (htraces.of_extends hlater)
      (htraces'.of_extends hlater') hc rfl rfl rfl rfl
  exact foldlM_pair hlaws hop hterms hstart hp₁ hp₁' (hext'.folding.trans hfolding) hrest hrest'
    htraces htraces'

omit [Scalar α] in
/-- The same number names a pair of results. -/
theorem pair_of_getElem? {results results' : List ExprId}
    (h : List.Forall₂ (Pair trace' trace) results' results) {x : Nat} {id id' : ExprId}
    (hid : results[x]? = some id) (hid' : results'[x]? = some id') : Pair trace' trace id' id := by
  obtain ⟨hlt, rfl⟩ := List.getElem?_eq_some_iff.mp hid
  obtain ⟨hlt', rfl⟩ := List.getElem?_eq_some_iff.mp hid'
  exact h.get hlt' hlt

omit [Scalar α] in
theorem pairs_of_mapM {results results' : List ExprId}
    (h : List.Forall₂ (Pair trace' trace) results' results) {xs : List Nat}
    {ids ids' : List ExprId} (hids : xs.mapM (results[·]?) = some ids)
    (hids' : xs.mapM (results'[·]?) = some ids') :
    List.Forall₂ (Pair trace' trace) ids' ids := by
  have hmembers := mapM_some_iff_forall₂.mp hids
  have hmembers' := mapM_some_iff_forall₂.mp hids'
  clear hids hids'
  induction hmembers generalizing ids' with
  | nil =>
      cases hmembers'
      exact .nil
  | cons hid _ ih =>
      cases hmembers' with
      | cons hid' hrest' => exact .cons (pair_of_getElem? h hid hid') (ih hrest')

/-- **The step.**  A call of a script, made on both pools. -/
theorem Call.run_pair (hlaws : Scalar.SignLaws α) {c d d' : Call α} (hc : c.isDiscrete = true)
    {results results' : List ExprId} (hresults : List.Forall₂ (Pair trace' trace) results' results)
    (hd : c.on? results = some d) (hd' : c.on? results' = some d') {p p' q q' : Pool α}
    (hp : p.Sane) (hp' : p'.Sane) (hfolding : p'.folding = false) {id id' : ExprId}
    (h : d.run p = .ok id q) (h' : d'.run p' = .ok id' q') (htraces : q.Traces ρ trace)
    (htraces' : q'.Traces ρ trace')
    (hcalm : ∀ x rising y, c = .edge x rising → results[x]? = some y →
      Calm ρ p (.edge y rising)) : Pair trace' trace id' id := by
  cases c with
  | constant v =>
      cases hd
      cases hd'
      exact intern_pair hp.wellFormed hp'.wellFormed h h' htraces htraces' hc rfl rfl rfl rfl
  | sensor name kind =>
      cases hd
      cases hd'
      exact intern_pair hp.wellFormed hp'.wellFormed h h' htraces htraces' trivial rfl rfl rfl
        rfl
  | deviceSensor host device name kind =>
      cases hd
      cases hd'
      exact intern_pair hp.wellFormed hp'.wellFormed h h' htraces htraces' trivial rfl rfl rfl
        rfl
  | input name kind scope =>
      cases hd
      cases hd'
      exact intern_pair hp.wellFormed hp'.wellFormed h h' htraces htraces' trivial rfl rfl rfl
        rfl
  | unary op x =>
      simp only [Call.on?, Option.bind_eq_bind, Option.bind_eq_some_iff, Option.pure_def,
        Option.some.injEq] at hd hd'
      obtain ⟨a, ha, rfl⟩ := hd
      obtain ⟨a', ha', rfl⟩ := hd'
      have hform : (Form.unary (α := α) op a).isDiscrete = true := hc
      have hform' : (Form.unary (α := α) op a').isDiscrete = true := hc
      exact build_pair hlaws hp hp' hfolding hform hform' h h' htraces htraces' trivial rfl
        (.cons (pair_of_getElem? hresults ha ha') .nil)
  | binary op x y =>
      simp only [Call.on?, Option.bind_eq_bind, Option.bind_eq_some_iff, Option.pure_def,
        Option.some.injEq] at hd hd'
      obtain ⟨a, ha, b, hb, rfl⟩ := hd
      obtain ⟨a', ha', b', hb', rfl⟩ := hd'
      have hform : (Form.binary (α := α) op a b).isDiscrete = true := hc
      have hform' : (Form.binary (α := α) op a' b').isDiscrete = true := hc
      exact build_pair hlaws hp hp' hfolding hform hform' h h' htraces htraces' trivial rfl
        (.cons (pair_of_getElem? hresults ha ha') (.cons (pair_of_getElem? hresults hb hb') .nil))
  | compare op x y =>
      simp only [Call.on?, Option.bind_eq_bind, Option.bind_eq_some_iff, Option.pure_def,
        Option.some.injEq] at hd hd'
      obtain ⟨a, ha, b, hb, rfl⟩ := hd
      obtain ⟨a', ha', b', hb', rfl⟩ := hd'
      exact build_pair hlaws hp hp' hfolding rfl rfl h h' htraces htraces' trivial rfl
        (.cons (pair_of_getElem? hresults ha ha') (.cons (pair_of_getElem? hresults hb hb') .nil))
  | select x y z =>
      simp only [Call.on?, Option.bind_eq_bind, Option.bind_eq_some_iff, Option.pure_def,
        Option.some.injEq] at hd hd'
      obtain ⟨a, ha, b, hb, c, hc, rfl⟩ := hd
      obtain ⟨a', ha', b', hb', c', hc', rfl⟩ := hd'
      exact build_pair hlaws hp hp' hfolding rfl rfl h h' htraces htraces' trivial rfl
        (.cons (pair_of_getElem? hresults ha ha') (.cons (pair_of_getElem? hresults hb hb')
          (.cons (pair_of_getElem? hresults hc hc') .nil)))
  | limit x y z =>
      simp only [Call.on?, Option.bind_eq_bind, Option.bind_eq_some_iff, Option.pure_def,
        Option.some.injEq] at hd hd'
      obtain ⟨a, ha, b, hb, c, hc, rfl⟩ := hd
      obtain ⟨a', ha', b', hb', c', hc', rfl⟩ := hd'
      exact build_pair hlaws hp hp' hfolding rfl rfl h h' htraces htraces' trivial rfl
        (.cons (pair_of_getElem? hresults ha ha') (.cons (pair_of_getElem? hresults hb hb')
          (.cons (pair_of_getElem? hresults hc hc') .nil)))
  | all terms =>
      obtain ⟨ids, hids, rfl⟩ := Option.map_eq_some_iff.mp hd
      obtain ⟨ids', hids', rfl⟩ := Option.map_eq_some_iff.mp hd'
      exact join_pair hlaws rfl rfl (pairs_of_mapM hresults hids hids') hp hp' hfolding h h'
        htraces htraces'
  | any terms =>
      obtain ⟨ids, hids, rfl⟩ := Option.map_eq_some_iff.mp hd
      obtain ⟨ids', hids', rfl⟩ := Option.map_eq_some_iff.mp hd'
      exact join_pair hlaws rfl rfl (pairs_of_mapM hresults hids hids') hp hp' hfolding h h'
        htraces htraces'
  | pre x initial =>
      simp only [Call.on?, Option.bind_eq_bind, Option.bind_eq_some_iff, Option.pure_def,
        Option.some.injEq] at hd hd'
      obtain ⟨a, ha, rfl⟩ := hd
      obtain ⟨a', ha', rfl⟩ := hd'
      exact build_pair hlaws hp hp' hfolding rfl rfl h h' htraces htraces' trivial rfl
        (.cons (pair_of_getElem? hresults ha ha') .nil)
  | edge x rising =>
      simp only [Call.on?, Option.bind_eq_bind, Option.bind_eq_some_iff, Option.pure_def,
        Option.some.injEq] at hd hd'
      obtain ⟨a, ha, rfl⟩ := hd
      obtain ⟨a', ha', rfl⟩ := hd'
      exact build_pair hlaws hp hp' hfolding rfl rfl h h' htraces htraces'
        (hcalm x rising a rfl ha) rfl (.cons (pair_of_getElem? hresults ha ha') .nil)
  | _ => cases hc

/-- Edges of literals that folding takes for something that never occurs do
not occur in the reading either. -/
def CalmScript (ρ : Reading α ι) (script : List (Call α)) (ids : List ExprId) (p : Pool α) : Prop :=
  ∀ x rising id, .edge x rising ∈ script → ids[x]? = some id → Calm ρ p (.edge id rising)

/-- Runs that go on from results that are pairs. -/
theorem runScript_pairs (hlaws : Scalar.SignLaws α) {script : List (Call α)}
    (hscript : ∀ c ∈ script, c.isDiscrete = true) {results results' ids ids' : List ExprId}
    (hresults : List.Forall₂ (Pair trace' trace) results' results) {p p' q q' : Pool α}
    (hp : p.Sane) (hp' : p'.Sane) (hfolding : p'.folding = false)
    (h : runScript script results p = .ok ids q)
    (h' : runScript script results' p' = .ok ids' q') (htraces : q.Traces ρ trace)
    (htraces' : q'.Traces ρ trace') (hcalm : CalmScript ρ script ids q) :
    List.Forall₂ (Pair trace' trace) ids' ids := by
  induction script generalizing results results' p p' with
  | nil =>
      obtain ⟨rfl, -⟩ := pure_eq_ok.mp h
      obtain ⟨rfl, -⟩ := pure_eq_ok.mp h'
      exact hresults
  | cons c rest ih =>
      obtain ⟨d, id, p₁, hd, hrun, hrest⟩ := runScript_cons h
      obtain ⟨d', id', p₁', hd', hrun', hrest'⟩ := runScript_cons h'
      have hc := hscript c (by simp)
      have hcalls : ∀ c ∈ rest, c.isDiscrete = true := fun c hc => hscript c (by simp [hc])
      obtain ⟨hp₁, hext⟩ := Call.run_tidy (Call.on?_isDiscrete hc hd) hp hrun
      obtain ⟨hp₁', hext'⟩ := Call.run_tidy (Call.on?_isDiscrete hc hd') hp' hrun'
      obtain ⟨-, hlater, hkept⟩ := runScript_tidy hcalls hp₁ hrest
      obtain ⟨-, hlater', -⟩ := runScript_tidy hcalls hp₁' hrest'
      have hpair : Pair trace' trace id' id := by
        refine Call.run_pair hlaws hc hresults hd hd' hp hp' hfolding hrun hrun'
          (htraces.of_extends hlater) (htraces'.of_extends hlater') ?_
        rintro x rising y rfl hy v hv
        -- What is a literal when the call is made stays one.
        refine hcalm x rising y (by simp) ?_ v ?_
        · obtain ⟨more, rfl⟩ := (List.prefix_append results [id]).trans hkept
          rw [List.getElem?_append_left (List.getElem?_eq_some_iff.mp hy).1]
          exact hy
        · exact (hext.trans hlater).literal? hv
      exact ih hcalls (List.rel_append hresults (.cons hpair .nil)) hp₁ hp₁'
        (hext'.folding.trans hfolding) hrest hrest'
        fun x rising y hmem => hcalm x rising y (by simp [hmem])

/-- **Folding refines a script.**  Result by result, whatever the plain pool
has as a value, the folding pool has too. -/
theorem runScript_refines (hlaws : Scalar.SignLaws α) {script : List (Call α)}
    (hscript : ∀ c ∈ script, c.isDiscrete = true) {ids ids' : List ExprId} {p q : Pool α}
    (h : runScript script [] { folding := true } = .ok ids p)
    (h' : runScript script [] { folding := false } = .ok ids' q) (htraces : p.Traces ρ trace)
    (htraces' : q.Traces ρ trace') (hcalm : CalmScript ρ script ids p) :
    List.Forall₂ (Pair trace' trace) ids' ids :=
  runScript_pairs hlaws hscript .nil (sane_empty true) (sane_empty false) rfl h h' htraces
    htraces' hcalm

end Pairs

end SignalNet.Pool
