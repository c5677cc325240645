/-
  Computations on a state that may fail, taken one step at a time.

  Engine operations and statements are both written as sequences of small steps, each of which answers
  or fails and leaves a state either way.  The first lemmas run one step of such a sequence: what comes
  after it is run where it answered, and is never run where it failed.

  `Keeps R x` looks at the state alone: whatever `x` answers, the state it leaves is related by `R` to
  the one it found.  For a reflexive and transitive `R` this is closed under sequencing, so a fact about
  whole statements comes down to the few elementary changes that they are made of.

  `Atomic x` looks at failures alone: if `x` fails, the state is the one it found.  This is not closed
  under sequencing, since the second part may fail after the first has changed the state.  It holds
  where everything up to the last step that can fail only looks at the state, which is how statements
  are built: operands are evaluated, then one step may fail, then what cannot fail is done.

  `Matches S excused x y` looks at two computations side by side: from states related by `S` they answer
  or fail alike and leave related states, except that the first may stop with an excused error where
  the second goes on.  Nothing is asked of the second then, so this too is closed under sequencing, also
  where the answer of the first has to be translated to be that of the second (`Matches.bind_map`).
-/
namespace QubitBasic

variable {ε σ α β γ : Type}

/-- A step that answers hands its answer and its state on. -/
theorem bind_of_ok {x : EStateM ε σ α} {f : α → EStateM ε σ β} {s s' : σ} {a : α}
    (h : x s = .ok a s') : (x >>= f) s = f a s' := by
  show EStateM.bind x f s = f a s'
  rw [EStateM.bind, h]

/-- A step that fails is the last one. -/
theorem bind_of_error {x : EStateM ε σ α} {f : α → EStateM ε σ β} {s s' : σ} {error : ε}
    (h : x s = .error error s') : (x >>= f) s = .error error s' := by
  show EStateM.bind x f s = .error error s'
  rw [EStateM.bind, h]

/-- Translating an answer changes nothing else. -/
theorem map_of_ok (f : α → β) {x : EStateM ε σ α} {s s' : σ} {a : α} (h : x s = .ok a s') :
    (f <$> x) s = .ok (f a) s' := by
  show EStateM.map f x s = .ok (f a) s'
  rw [EStateM.map, h]

theorem map_of_error (f : α → β) {x : EStateM ε σ α} {s s' : σ} {error : ε}
    (h : x s = .error error s') : (f <$> x) s = .error error s' := by
  show EStateM.map f x s = .error error s'
  rw [EStateM.map, h]

theorem map_congr_at (f : α → β) {x y : EStateM ε σ α} {s : σ} (h : x s = y s) :
    (f <$> x) s = (f <$> y) s := by
  show EStateM.map f x s = EStateM.map f y s
  rw [EStateM.map, EStateM.map, h]

/-- Looking at the state changes nothing. -/
theorem get_bind (f : σ → EStateM ε σ β) (s : σ) : (get >>= f) s = f s s := rfl

/-! ## Relations kept by a computation -/

/-- The state that a computation leaves, whether it answers or fails. -/
def finalState (x : EStateM ε σ α) (s : σ) : σ :=
  match x s with
  | .ok _ s' => s'
  | .error _ s' => s'

theorem finalState_of_ok {x : EStateM ε σ α} {s s' : σ} {a : α} (h : x s = .ok a s') :
    finalState x s = s' := by
  rw [finalState, h]

theorem finalState_of_error {x : EStateM ε σ α} {s s' : σ} {error : ε}
    (h : x s = .error error s') : finalState x s = s' := by
  rw [finalState, h]

/-- The computation leaves a state that is related by `R` to the one it finds. -/
def Keeps (R : σ → σ → Prop) (x : EStateM ε σ α) : Prop := ∀ s, R s (finalState x s)

variable {R : σ → σ → Prop}

theorem keeps_pure (hrefl : ∀ s, R s s) (a : α) : Keeps R (pure a : EStateM ε σ α) :=
  fun s => hrefl s

theorem keeps_throw (hrefl : ∀ s, R s s) (error : ε) : Keeps R (throw error : EStateM ε σ α) :=
  fun s => hrefl s

theorem keeps_get (hrefl : ∀ s, R s s) : Keeps R (get : EStateM ε σ σ) :=
  fun s => hrefl s

theorem Keeps.bind (htrans : ∀ ⦃s s' s''⦄, R s s' → R s' s'' → R s s'') {x : EStateM ε σ α}
    {f : α → EStateM ε σ β} (hx : Keeps R x) (hf : ∀ a, Keeps R (f a)) : Keeps R (x >>= f) := by
  intro s
  have hfirst := hx s
  cases h : x s with
  | ok a s' =>
    rw [finalState_of_ok h] at hfirst
    rw [finalState, bind_of_ok h]
    exact htrans hfirst (hf a s')
  | error error s' =>
    rw [finalState_of_error h] at hfirst
    rw [finalState_of_error (bind_of_error h)]
    exact hfirst

theorem keeps_mapM (hrefl : ∀ s, R s s) (htrans : ∀ ⦃s s' s''⦄, R s s' → R s' s'' → R s s'')
    {f : α → EStateM ε σ β} (hf : ∀ a, Keeps R (f a)) (as : List α) : Keeps R (as.mapM f) := by
  induction as with
  | nil => exact keeps_pure hrefl []
  | cons a as ih =>
    rw [List.mapM_cons]
    exact (hf a).bind htrans fun b => ih.bind htrans fun bs => keeps_pure hrefl (b :: bs)

/-! ## Failing without a trace -/

/-- The computation leaves the state alone. -/
def Reads (x : EStateM ε σ α) : Prop := Keeps Eq x

theorem reads_pure (a : α) : Reads (pure a : EStateM ε σ α) := fun _ => rfl

theorem reads_throw (error : ε) : Reads (throw error : EStateM ε σ α) := fun _ => rfl

theorem reads_get : Reads (get : EStateM ε σ σ) := fun _ => rfl

theorem Reads.bind {x : EStateM ε σ α} {f : α → EStateM ε σ β} (hx : Reads x)
    (hf : ∀ a, Reads (f a)) : Reads (x >>= f) :=
  Keeps.bind (R := Eq) (fun _ _ _ => Eq.trans) hx hf

theorem reads_mapM {f : α → EStateM ε σ β} (hf : ∀ a, Reads (f a)) (as : List α) :
    Reads (as.mapM f) :=
  keeps_mapM (R := Eq) (fun _ => rfl) (fun _ _ _ => Eq.trans) hf as

/-- If the computation fails, it leaves the state that it found. -/
def Atomic (x : EStateM ε σ α) : Prop := ∀ ⦃s error s'⦄, x s = .error error s' → s' = s

/-- The computation answers, whatever state it finds. -/
def NeverFails (x : EStateM ε σ α) : Prop := ∀ s, ∃ a s', x s = .ok a s'

theorem Reads.atomic {x : EStateM ε σ α} (hx : Reads x) : Atomic x := by
  intro s error s' h
  have hs := hx s
  rw [finalState_of_error h] at hs
  exact hs.symm

/-- Looking at the state first does no harm. -/
theorem Reads.bind_atomic {x : EStateM ε σ α} {f : α → EStateM ε σ β} (hx : Reads x)
    (hf : ∀ a, Atomic (f a)) : Atomic (x >>= f) := by
  intro s error s' h
  have hs := hx s
  cases hx' : x s with
  | ok a s₁ =>
    rw [finalState_of_ok hx'] at hs
    rw [bind_of_ok hx', ← hs] at h
    exact hf a h
  | error error₁ s₁ =>
    rw [bind_of_error hx'] at h
    cases h
    exact hx.atomic hx'

/-- Nor does what cannot fail, afterwards. -/
theorem Atomic.bind_neverFails {x : EStateM ε σ α} {f : α → EStateM ε σ β} (hx : Atomic x)
    (hf : ∀ a, NeverFails (f a)) : Atomic (x >>= f) := by
  intro s error s' h
  cases hx' : x s with
  | ok a s₁ =>
    obtain ⟨b, s₂, hb⟩ := hf a s₁
    rw [bind_of_ok hx', hb] at h
    cases h
  | error error₁ s₁ =>
    rw [bind_of_error hx'] at h
    cases h
    exact hx hx'

theorem neverFails_pure (a : α) : NeverFails (pure a : EStateM ε σ α) := fun s => ⟨a, s, rfl⟩

theorem NeverFails.bind {x : EStateM ε σ α} {f : α → EStateM ε σ β} (hx : NeverFails x)
    (hf : ∀ a, NeverFails (f a)) : NeverFails (x >>= f) := by
  intro s
  obtain ⟨a, s₁, ha⟩ := hx s
  obtain ⟨b, s₂, hb⟩ := hf a s₁
  exact ⟨b, s₂, (bind_of_ok ha).trans hb⟩

/-! ## Two computations side by side -/

/-- How two computations may end: with one answer or one error and related states, or the first with
    an excused error. -/
inductive Alike (S : σ → σ → Prop) (excused : ε → Prop) :
    EStateM.Result ε σ α → EStateM.Result ε σ α → Prop
  | ok {a s s'} : S s s' → Alike S excused (.ok a s) (.ok a s')
  | error {error s s'} : S s s' → Alike S excused (.error error s) (.error error s')
  | excused {error s result} : excused error → Alike S excused (.error error s) result

/-- From related states the two computations end alike. -/
def Matches (S : σ → σ → Prop) (excused : ε → Prop) (x y : EStateM ε σ α) : Prop :=
  ∀ ⦃s s'⦄, S s s' → Alike S excused (x s) (y s')

variable {S : σ → σ → Prop} {excused : ε → Prop}

theorem matches_pure (a : α) : Matches S excused (pure a) (pure a) := fun _ _ hs => .ok hs

theorem matches_throw (error : ε) :
    Matches S excused (throw error : EStateM ε σ α) (throw error) := fun _ _ hs => .error hs

theorem Matches.bind {x y : EStateM ε σ α} {f g : α → EStateM ε σ β} (hx : Matches S excused x y)
    (hf : ∀ a, Matches S excused (f a) (g a)) : Matches S excused (x >>= f) (y >>= g) := by
  intro s s' hs
  have hfirst := hx hs
  generalize hrx : x s = rx at hfirst
  generalize hry : y s' = ry at hfirst
  cases hfirst with
  | ok hs₁ =>
    rw [bind_of_ok hrx, bind_of_ok hry]
    exact hf _ hs₁
  | error hs₁ =>
    rw [bind_of_error hrx, bind_of_error hry]
    exact .error hs₁
  | excused herror =>
    rw [bind_of_error hrx]
    exact .excused herror

/-- The same where the answer of the first is translated. -/
theorem Matches.bind_map {x y : EStateM ε σ α} {f : α → EStateM ε σ β} {g : α → EStateM ε σ γ}
    {translate : β → γ} (hx : Matches S excused x y)
    (hf : ∀ a, Matches S excused (translate <$> f a) (g a)) :
    Matches S excused (translate <$> (x >>= f)) (y >>= g) := by
  rw [map_bind]
  exact hx.bind hf

theorem matches_mapM {f g : α → EStateM ε σ β} (hf : ∀ a, Matches S excused (f a) (g a))
    (as : List α) : Matches S excused (as.mapM f) (as.mapM g) := by
  induction as with
  | nil => exact matches_pure []
  | cons a as ih =>
    rw [List.mapM_cons, List.mapM_cons]
    exact (hf a).bind fun b => ih.bind fun bs => matches_pure (b :: bs)

end QubitBasic
