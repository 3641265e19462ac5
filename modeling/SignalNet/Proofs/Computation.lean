import Mathlib.Data.List.Forall2

/-!
# Computations with state and errors

Pools, fragments, sessions and simulators are all transformed by computations
that end either with a result or with an error, and leave a state in both
cases.  This module holds what their proofs share:

* `bind_eq_ok` takes a successful sequence apart into its two steps;
* `Keeps` says that a computation relates the state it starts in with the
  state it leaves, however it ends, and `keeps_bind` composes it;
* the look-up lemmas `mapM_ok_iff_forall₂` and `mapM_some_iff_forall₂` turn a
  traversal of a list into a relation between two lists, and
  `except_bind_eq_ok` takes a successful query apart.
-/

namespace SignalNet.Computing

variable {ε σ β γ : Type}

/-- The state that a computation leaves, with a result or with an error. -/
def finalState : EStateM.Result ε σ β → σ
  | .ok _ s => s
  | .error _ s => s

@[simp] theorem finalState_ok (b : β) (s : σ) :
    finalState (.ok b s : EStateM.Result ε σ β) = s :=
  rfl

@[simp] theorem finalState_error (e : ε) (s : σ) :
    finalState (.error e s : EStateM.Result ε σ β) = s :=
  rfl

/-- A sequence goes on after a first part that succeeds. -/
theorem bind_of_ok {x : EStateM ε σ β} {f : β → EStateM ε σ γ} {s t : σ} {b : β}
    (h : x s = .ok b t) : (x >>= f) s = f b t := by
  show EStateM.bind x f s = f b t
  unfold EStateM.bind
  rw [h]

/-- It stops at a first part that fails. -/
theorem bind_of_error {x : EStateM ε σ β} {f : β → EStateM ε σ γ} {s t : σ} {e : ε}
    (h : x s = .error e t) : (x >>= f) s = .error e t := by
  show EStateM.bind x f s = .error e t
  unfold EStateM.bind
  rw [h]

theorem get_bind {f : σ → EStateM ε σ γ} {s : σ} :
    ((get : EStateM ε σ σ) >>= f) s = f s s :=
  rfl

/-- A successful sequence of two computations consists of two successful
computations. -/
theorem bind_eq_ok {x : EStateM ε σ β} {f : β → EStateM ε σ γ} {s s' : σ} {c : γ} :
    (x >>= f) s = .ok c s' ↔ ∃ b t, x s = .ok b t ∧ f b t = .ok c s' := by
  show EStateM.bind x f s = _ ↔ _
  unfold EStateM.bind
  cases hx : x s with
  | ok b t =>
      constructor
      · intro h
        exact ⟨b, t, rfl, h⟩
      · rintro ⟨_, _, heq, h⟩
        cases heq
        exact h
  | error e t => simp

/-- Two sequences that begin alike are equal if they go on alike after what the
beginning can leave. -/
theorem bind_congr_ok {x : EStateM ε σ β} {f g : β → EStateM ε σ γ} {s : σ}
    (h : ∀ b t, x s = .ok b t → f b t = g b t) : (x >>= f) s = (x >>= g) s := by
  show EStateM.bind x f s = EStateM.bind x g s
  unfold EStateM.bind
  cases hx : x s with
  | ok b t => exact h b t hx
  | error e t => rfl

/-- A sequence fails in its first part or in what follows. -/
theorem bind_eq_error {x : EStateM ε σ β} {f : β → EStateM ε σ γ} {s s' : σ} {e : ε} :
    (x >>= f) s = .error e s' ↔
      x s = .error e s' ∨ ∃ b t, x s = .ok b t ∧ f b t = .error e s' := by
  show EStateM.bind x f s = _ ↔ _
  unfold EStateM.bind
  cases hx : x s with
  | ok b t => simp
  | error e' t => simp

/-- Forgetting the result does not change how a computation fails. -/
theorem discard_eq_error {x : EStateM ε σ β} {s s' : σ} {e : ε}
    (h : (Functor.discard x : EStateM ε σ PUnit) s = .error e s') : x s = .error e s' := by
  have hbind : (x >>= fun _ => pure PUnit.unit) s = .error e s' := h
  rcases bind_eq_error.mp hbind with hx | ⟨b, t, -, hpure⟩
  · exact hx
  · cases hpure

/-- A fold fails at a member of the list, and has gone through those in front of
it. -/
theorem foldlM_eq_error {f : β → γ → EStateM ε σ β} {cs : List γ} {b : β} {s s' : σ} {e : ε}
    (h : cs.foldlM f b s = .error e s') :
    ∃ before c after b' t, cs = before ++ c :: after ∧ before.foldlM f b s = .ok b' t ∧
      f b' c t = .error e s' := by
  induction cs generalizing b s with
  | nil => cases h
  | cons c rest ih =>
      rw [List.foldlM_cons] at h
      rcases bind_eq_error.mp h with hfirst | ⟨b₁, s₁, hfirst, hrest⟩
      · exact ⟨[], c, rest, b, s, rfl, rfl, hfirst⟩
      · obtain ⟨before, d, after, b', t, rfl, hbefore, herror⟩ := ih hrest
        refine ⟨c :: before, d, after, b', t, rfl, ?_, herror⟩
        rw [List.foldlM_cons]
        exact bind_eq_ok.mpr ⟨b₁, s₁, hfirst, hbefore⟩

@[simp] theorem pure_eq_ok {b c : β} {s s' : σ} :
    (pure b : EStateM ε σ β) s = .ok c s' ↔ b = c ∧ s = s' := by
  show EStateM.Result.ok b s = .ok c s' ↔ _
  simp

theorem map_eq_ok {g : β → γ} {x : EStateM ε σ β} {s s' : σ} {c : γ} :
    (g <$> x) s = .ok c s' ↔ ∃ b, x s = .ok b s' ∧ g b = c := by
  show EStateM.map g x s = _ ↔ _
  unfold EStateM.map
  cases hx : x s with
  | ok b t =>
      constructor
      · intro h
        cases h
        exact ⟨b, rfl, rfl⟩
      · rintro ⟨_, heq, rfl⟩
        cases heq
        rfl
  | error e t => simp

@[simp] theorem throw_ne_ok {e : ε} {c : β} {s s' : σ} :
    ¬ (throw e : EStateM ε σ β) s = .ok c s' := by
  show ¬ EStateM.Result.error e s = .ok c s'
  simp

@[simp] theorem get_eq_ok {c s s' : σ} :
    (get : EStateM ε σ σ) s = .ok c s' ↔ s = c ∧ s = s' := by
  show EStateM.Result.ok s s = .ok c s' ↔ _
  simp

@[simp] theorem set_eq_ok {c : PUnit} {s s' t : σ} :
    (set t : EStateM ε σ PUnit) s = .ok c s' ↔ t = s' := by
  show EStateM.Result.ok PUnit.unit t = .ok c s' ↔ _
  simp

@[simp] theorem modify_eq_ok {g : σ → σ} {c : PUnit} {s s' : σ} :
    (modify g : EStateM ε σ PUnit) s = .ok c s' ↔ g s = s' := by
  show EStateM.Result.ok PUnit.unit (g s) = .ok c s' ↔ _
  simp

/-- A step that is made under a condition has been made or not; what follows
is the same. -/
theorem ite_bind_eq_ok {p : Prop} [Decidable p] {x : EStateM ε σ Unit}
    {f : Unit → EStateM ε σ γ} {s s' : σ} {c : γ}
    (h : (if p then x >>= f else f ()) s = .ok c s') :
    ∃ t, (¬p ∧ t = s ∨ p ∧ x s = .ok () t) ∧ f () t = .ok c s' := by
  by_cases hp : p
  · rw [if_pos hp] at h
    obtain ⟨_, t, hx, hf⟩ := bind_eq_ok.mp h
    exact ⟨t, Or.inr ⟨hp, hx⟩, hf⟩
  · rw [if_neg hp] at h
    exact ⟨s, Or.inl ⟨hp, rfl⟩, h⟩

/-- A computation relates the state it starts in with the state it leaves,
whether it succeeds or not. -/
def Keeps (R : σ → σ → Prop) (x : EStateM ε σ β) : Prop :=
  ∀ s, R s (finalState (x s))

section Keeps

variable {R : σ → σ → Prop}

theorem keeps_pure (hrefl : ∀ s, R s s) (b : β) : Keeps R (pure b : EStateM ε σ β) :=
  fun s => hrefl s

theorem keeps_throw (hrefl : ∀ s, R s s) (e : ε) : Keeps R (throw e : EStateM ε σ β) :=
  fun s => hrefl s

/-- What two computations keep, their sequence keeps. -/
theorem keeps_bind (htrans : ∀ a b c, R a b → R b c → R a c)
    {x : EStateM ε σ β} {f : β → EStateM ε σ γ}
    (hx : Keeps R x) (hf : ∀ b, Keeps R (f b)) : Keeps R (x >>= f) := by
  intro s
  have hs := hx s
  show R s (finalState (EStateM.bind x f s))
  unfold EStateM.bind
  cases hrun : x s with
  | ok b t =>
      rw [hrun] at hs
      exact htrans _ _ _ hs (hf b t)
  | error e t =>
      rw [hrun] at hs
      exact hs

/-- A computation that begins by looking at its state keeps a relation if it
does so once the state is known. -/
theorem keeps_get_bind {f : σ → EStateM ε σ γ}
    (hf : ∀ s, R s (finalState (f s s))) : Keeps R (get >>= f) :=
  fun s => hf s

/-- Folding over a list keeps what each step keeps. -/
theorem keeps_foldlM (hrefl : ∀ s, R s s) (htrans : ∀ a b c, R a b → R b c → R a c)
    {f : β → γ → EStateM ε σ β} (hf : ∀ b c, Keeps R (f b c)) :
    ∀ (cs : List γ) (b : β), Keeps R (cs.foldlM f b) := by
  intro cs
  induction cs with
  | nil =>
      intro b
      exact keeps_pure hrefl b
  | cons c rest ih =>
      intro b
      rw [List.foldlM_cons]
      exact keeps_bind htrans (hf b c) ih

end Keeps

/-! ### Computations that cannot fail -/

theorem state_bind {x : StateM σ β} {f : β → StateM σ γ} {s : σ} :
    (x >>= f) s = f (x s).1 (x s).2 :=
  rfl

theorem state_pure {b : β} {s : σ} : (pure b : StateM σ β) s = (b, s) :=
  rfl

theorem state_map {g : β → γ} {x : StateM σ β} {s : σ} : (g <$> x) s = (g (x s).1, (x s).2) :=
  rfl

theorem state_get {s : σ} : (get : StateM σ σ) s = (s, s) :=
  rfl

/-! ### Queries and lists -/

/-- A successful query that depends on another one. -/
theorem except_bind_eq_ok {x : Except ε β} {f : β → Except ε γ} {c : γ} :
    x >>= f = .ok c ↔ ∃ b, x = .ok b ∧ f b = .ok c := by
  cases x with
  | error e => simp [bind, Except.bind]
  | ok b => simp [bind, Except.bind]

/-- Traversing a list succeeds exactly if each member does, and then the
results stand across from the members. -/
theorem mapM_ok_iff_forall₂ {f : β → Except ε γ} {bs : List β} {cs : List γ} :
    bs.mapM f = .ok cs ↔ List.Forall₂ (fun b c => f b = .ok c) bs cs := by
  induction bs generalizing cs with
  | nil => simp [pure, Except.pure, eq_comm]
  | cons b bs ih =>
      rw [List.mapM_cons, List.forall₂_cons_left_iff]
      simp only [← ih]
      cases hb : f b with
      | error e => simp [bind, Except.bind]
      | ok c =>
          cases hbs : bs.mapM f with
          | error e => simp [bind, Except.bind]
          | ok ds => simp [bind, Except.bind, pure, Except.pure, eq_comm]

/-- The same for members that may have no result. -/
theorem mapM_some_iff_forall₂ {f : β → Option γ} {bs : List β} {cs : List γ} :
    bs.mapM f = some cs ↔ List.Forall₂ (fun b c => f b = some c) bs cs := by
  induction bs generalizing cs with
  | nil => simp [eq_comm]
  | cons b bs ih =>
      rw [List.mapM_cons, List.forall₂_cons_left_iff]
      simp only [← ih]
      cases hb : f b with
      | none => simp
      | some c =>
          cases hbs : bs.mapM f with
          | none => simp
          | some ds => simp [eq_comm]

/-- Traversals agree if they do so for each member. -/
theorem mapM_congr {m : Type → Type} [Monad m] [LawfulMonad m] {f g : β → m γ} {bs : List β}
    (h : ∀ b ∈ bs, f b = g b) : bs.mapM f = bs.mapM g := by
  induction bs with
  | nil => simp
  | cons b bs ih =>
      have hrest := ih fun c hc => h c (List.mem_cons_of_mem b hc)
      rw [List.mapM_cons, List.mapM_cons, h b List.mem_cons_self, hrest]

/-- What is related to something, member by member. -/
theorem exists_forall₂_of_forall {R : β → γ → Prop} {bs : List β} (h : ∀ b ∈ bs, ∃ c, R b c) :
    ∃ cs, List.Forall₂ R bs cs := by
  induction bs with
  | nil => exact ⟨[], .nil⟩
  | cons b bs ih =>
      obtain ⟨c, hc⟩ := h b List.mem_cons_self
      obtain ⟨cs, hcs⟩ := ih fun d hd => h d (List.mem_cons_of_mem b hd)
      exact ⟨c :: cs, .cons hc hcs⟩

/-- What is in the first of two related lists is related to something in the
second. -/
theorem forall₂_exists_of_mem {R : β → γ → Prop} {bs : List β} {cs : List γ}
    (h : List.Forall₂ R bs cs) {b : β} (hb : b ∈ bs) : ∃ c ∈ cs, R b c := by
  induction h with
  | nil => cases hb
  | cons hrel _ ih =>
      rcases List.mem_cons.mp hb with rfl | hrest
      · exact ⟨_, by simp, hrel⟩
      · obtain ⟨c, hc, hbc⟩ := ih hrest
        exact ⟨c, by simp [hc], hbc⟩

theorem forall₂_singleton_right {R : β → γ → Prop} {bs : List β} {c : γ}
    (h : List.Forall₂ R bs [c]) : ∃ b, bs = [b] ∧ R b c := by
  cases h with
  | cons hb hrest =>
      cases hrest
      exact ⟨_, rfl, hb⟩

/-- Related lists stay related if the relation only has to hold for their
members. -/
theorem forall₂_imp_of_mem {R S : β → γ → Prop} {bs : List β} {cs : List γ}
    (h : List.Forall₂ R bs cs) (hRS : ∀ b ∈ bs, ∀ c, R b c → S b c) : List.Forall₂ S bs cs := by
  induction h with
  | nil => exact List.Forall₂.nil
  | cons hrel _ ih =>
      exact List.Forall₂.cons (hRS _ (by simp) _ hrel) (ih fun b hb => hRS b (by simp [hb]))

/-- Lists are equal if what their members are related to tells these apart. -/
theorem forall₂_unique {β γ : Type} {R : β → γ → Prop} {bs bs' : List β} {cs : List γ}
    (h : List.Forall₂ R bs cs) (h' : List.Forall₂ R bs' cs)
    (hunique : ∀ b ∈ bs, ∀ b' c, R b c → R b' c → b = b') : bs = bs' := by
  induction h generalizing bs' with
  | nil =>
      cases h'
      rfl
  | cons hbc _ ih =>
      cases h' with
      | cons hbc' hrest =>
          obtain rfl := hunique _ List.mem_cons_self _ _ hbc hbc'
          rw [ih hrest fun b hb => hunique b (List.mem_cons_of_mem _ hb)]

/-- Lists that correspond to the same one correspond to each other. -/
theorem forall₂_meet {β γ δ : Type} {R : β → γ → Prop} {S : β → δ → Prop} {bs : List β}
    {cs : List γ} {ds : List δ} (h : List.Forall₂ R bs cs) (h' : List.Forall₂ S bs ds) :
    List.Forall₂ (fun c d => ∃ b, R b c ∧ S b d) cs ds := by
  induction h generalizing ds with
  | nil =>
      cases h'
      exact .nil
  | cons hbc _ ih =>
      cases h' with
      | cons hbd hrest => exact .cons ⟨_, hbc, hbd⟩ (ih hrest)

end SignalNet.Computing
