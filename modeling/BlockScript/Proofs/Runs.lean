/-!
# Runs of computations with a state

What a computation does is said by what holds after it: of the result and the state where it
succeeds, and of the failure and the state where it fails. Such a statement goes through the steps
of a computation one after the other.
-/

namespace BlockScript

variable {ε σ α β : Type}

/-- Whether a computation from a state succeeds with `post` or fails with `fault`. -/
def Ends (x : EStateM ε σ α) (s : σ) (post : α → σ → Prop) (fault : ε → σ → Prop) : Prop :=
  match x s with
  | .ok a s' => post a s'
  | .error e s' => fault e s'

variable {s s' : σ} {post post' : α → σ → Prop} {fault fault' : ε → σ → Prop}
  {x : EStateM ε σ α} {f : β → EStateM ε σ α}

/-- How a run ends. -/
theorem Ends.of_ok (h : Ends x s post fault) {a : α} (hx : x s = .ok a s') : post a s' := by
  unfold Ends at h
  rwa [hx] at h

/-- How a run fails. -/
theorem Ends.of_error (h : Ends x s post fault) {e : ε} (hx : x s = .error e s') : fault e s' := by
  unfold Ends at h
  rwa [hx] at h

/-- Less may be said. -/
theorem Ends.mono (h : Ends x s post fault) (hpost : ∀ a s', post a s' → post' a s')
    (hfault : ∀ e s', fault e s' → fault' e s') : Ends x s post' fault' := by
  unfold Ends at h ⊢
  split
  · rename_i a s' hx
    rw [hx] at h
    exact hpost a s' h
  · rename_i e s' hx
    rw [hx] at h
    exact hfault e s' h

/-- Two things may be said. -/
theorem Ends.and (h : Ends x s post fault) (h' : Ends x s post' fault') :
    Ends x s (fun a s' => post a s' ∧ post' a s') fun e s' => fault e s' ∧ fault' e s' := by
  unfold Ends at h h' ⊢
  split
  · rename_i a s' hx
    rw [hx] at h h'
    exact ⟨h, h'⟩
  · rename_i e s' hx
    rw [hx] at h h'
    exact ⟨h, h'⟩

/-- A result. -/
@[simp] theorem ends_pure {a : α} : Ends (pure a) s post fault ↔ post a s := Iff.rfl

/-- Reading the state. -/
@[simp] theorem ends_get {post : σ → σ → Prop} : Ends get s post fault ↔ post s s := Iff.rfl

/-- One computation after another ends as the second does from where the first ends. -/
@[simp] theorem ends_bind {x : EStateM ε σ β} :
    Ends (x >>= f) s post fault ↔ Ends x s (fun b s' => Ends (f b) s' post fault) fault := by
  change Ends (EStateM.bind x f) s post fault ↔ _
  unfold Ends EStateM.bind
  cases x s <;> exact Iff.rfl

/-- A changed result. -/
@[simp] theorem ends_map {x : EStateM ε σ β} {f : β → α} :
    Ends (f <$> x) s post fault ↔ Ends x s (fun b s' => post (f b) s') fault := by
  change Ends (EStateM.map f x) s post fault ↔ _
  unfold Ends EStateM.map
  cases x s <;> exact Iff.rfl

/-- A run that cannot fail. -/
theorem Ends.exists_ok (h : Ends x s post fun _ _ => False) :
    ∃ a s', x s = .ok a s' ∧ post a s' := by
  unfold Ends at h
  split at h
  · rename_i a s' hx
    exact ⟨a, s', hx, h⟩
  · exact h.elim

/-- After a result. -/
theorem run_bind_of_ok {x : EStateM ε σ β} {b : β} (h : x s = .ok b s') : (x >>= f) s = f b s' := by
  change EStateM.bind x f s = f b s'
  rw [EStateM.bind, h]

/-- After a fault. -/
theorem run_bind_of_error {x : EStateM ε σ β} {e : ε} (h : x s = .error e s') :
    (x >>= f) s = .error e s' := by
  change EStateM.bind x f s = .error e s'
  rw [EStateM.bind, h]

/-- After runs that are the same. -/
theorem run_bind_congr {x y : EStateM ε σ β} (h : x s = y s') : (x >>= f) s = (y >>= f) s' := by
  change EStateM.bind x f s = EStateM.bind y f s'
  rw [EStateM.bind, EStateM.bind, h]

/-- After the state is read. -/
theorem run_get_bind {f : σ → EStateM ε σ α} : (get >>= f) s = f s s := rfl

/-- Whether a computation that cannot fail ends with `post` from a state. -/
def Gives (x : StateM σ α) (s : σ) (post : α → σ → Prop) : Prop := post (x s).1 (x s).2

/-- Less may be said. -/
theorem Gives.mono {x : StateM σ α} (h : Gives x s post)
    (hpost : ∀ a s', post a s' → post' a s') : Gives x s post' :=
  hpost _ _ h

/-- Two things may be said. -/
theorem Gives.and {x : StateM σ α} (h : Gives x s post)
    (h' : Gives x s post') : Gives x s fun a s' => post a s' ∧ post' a s' :=
  ⟨h, h'⟩

/-- One run after another. -/
@[simp] theorem gives_bind {x : StateM σ β} {f : β → StateM σ α} :
    Gives (x >>= f) s post ↔ Gives x s fun b s' => Gives (f b) s' post := Iff.rfl

/-- A run that may be missing. -/
@[simp] theorem gives_mapM_some {f : β → StateM σ α} {b : β} {post : Option α → σ → Prop} :
    Gives (Option.mapM f (some b)) s post ↔ Gives (f b) s fun a s' => post (some a) s' := Iff.rfl

end BlockScript
