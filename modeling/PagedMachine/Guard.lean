/-!
# Code that may stop

Code in `EStateM` keeps its state when it stops with an error, as a machine keeps what an
instruction changed before its fault. `require` is the test that stops; the lemmas say how a
sequence runs and when it succeeds or stops.
-/

set_option autoImplicit false

namespace PagedMachine

section
variable {ε ε' σ α β : Type}

/-- Stops with `e` unless `ok`. -/
@[inline] def require (ok : Bool) (e : ε) : EStateM ε σ Unit :=
  if ok then pure () else throw e

/-- Goes on with `f` where `x` stops. -/
def handle (x : EStateM ε σ α) (f : ε → EStateM ε' σ α) : EStateM ε' σ α := fun s =>
  match x s with
  | .ok a s => .ok a s
  | .error e s => f e s

/-- The state that code leaves, whether it stopped or not. -/
def stateOf : EStateM.Result ε σ α → σ
  | .ok _ s => s
  | .error _ s => s

@[simp] theorem stateOf_ok (a : α) (s : σ) : stateOf (.ok a s : EStateM.Result ε σ α) = s := rfl

@[simp] theorem stateOf_error (e : ε) (s : σ) : stateOf (.error e s : EStateM.Result ε σ α) = s := rfl

/-- What code ends with, apart from its state. -/
def answerOf : EStateM.Result ε σ α → Except ε α
  | .ok a _ => .ok a
  | .error e _ => .error e

@[simp] theorem answerOf_ok (a : α) (s : σ) :
    answerOf (.ok a s : EStateM.Result ε σ α) = .ok a := rfl

@[simp] theorem answerOf_error (e : ε) (s : σ) :
    answerOf (.error e s : EStateM.Result ε σ α) = .error e := rfl

/-- The result seen through a function of the state. -/
def mapState {σ' : Type} (fn : σ → σ') : EStateM.Result ε σ α → EStateM.Result ε σ' α
  | .ok a s => .ok a (fn s)
  | .error e s => .error e (fn s)

theorem answerOf_mapState {σ' : Type} (fn : σ → σ') (result : EStateM.Result ε σ α) :
    answerOf (mapState fn result) = answerOf result := by
  cases result <;> rfl

theorem stateOf_mapState {σ' : Type} (fn : σ → σ') (result : EStateM.Result ε σ α) :
    stateOf (mapState fn result) = fn (stateOf result) := by
  cases result <;> rfl

theorem eq_ok_of_answerOf {a : α} {result : EStateM.Result ε σ α} (h : answerOf result = .ok a) :
    result = .ok a (stateOf result) := by
  cases result with
  | ok b s => rw [Except.ok.inj h, stateOf_ok]
  | error e s => cases h

theorem eq_error_of_answerOf {e : ε} {result : EStateM.Result ε σ α}
    (h : answerOf result = .error e) : result = .error e (stateOf result) := by
  cases result with
  | ok a s => cases h
  | error e' s => rw [Except.error.inj h, stateOf_error]

theorem require_apply (ok : Bool) (e : ε) (s : σ) :
    require ok e s = if ok then .ok () s else .error e s := by
  cases ok <;> rfl

theorem pure_apply (a : α) (s : σ) : (pure a : EStateM ε σ α) s = .ok a s := rfl

theorem throw_apply (e : ε) (s : σ) : (throw e : EStateM ε σ α) s = .error e s := rfl

theorem get_apply (s : σ) : (get : EStateM ε σ σ) s = .ok s s := rfl

theorem modify_apply (fn : σ → σ) (s : σ) : (modify fn : EStateM ε σ PUnit) s = .ok () (fn s) := rfl

theorem modifyGet_apply (fn : σ → α × σ) (s : σ) :
    (modifyGet fn : EStateM ε σ α) s = .ok (fn s).1 (fn s).2 := rfl

theorem bind_apply (x : EStateM ε σ α) (f : α → EStateM ε σ β) (s : σ) :
    (x >>= f) s =
      match x s with
      | .ok a s => f a s
      | .error e s => .error e s := rfl

theorem handle_apply (x : EStateM ε σ α) (f : ε → EStateM ε' σ α) (s : σ) :
    handle x f s =
      match x s with
      | .ok a s => .ok a s
      | .error e s => f e s := rfl

theorem adaptExcept_apply (fn : ε → ε') (x : EStateM ε σ α) (s : σ) :
    EStateM.adaptExcept fn x s =
      match x s with
      | .ok a s => .ok a s
      | .error e s => .error (fn e) s := by
  simp only [EStateM.adaptExcept]
  cases x s <;> rfl

theorem bind_eq_ok_iff {x : EStateM ε σ α} {f : α → EStateM ε σ β} {s t : σ} {b : β} :
    (x >>= f) s = .ok b t ↔ ∃ a u, x s = .ok a u ∧ f a u = .ok b t := by
  rw [bind_apply]
  cases x s <;> grind

theorem bind_eq_error_iff {x : EStateM ε σ α} {f : α → EStateM ε σ β} {s t : σ} {e : ε} :
    (x >>= f) s = .error e t ↔
      x s = .error e t ∨ ∃ a u, x s = .ok a u ∧ f a u = .error e t := by
  rw [bind_apply]
  cases x s <;> grind

end

end PagedMachine
