import Lotos.Request.Defs

/-!
# A connection in the event loop (`main.c`)

`ConnState` is a connection between two turns of the loop: its `connection_t`, the last result of its handlers, its
`active_time`, and whether it has been closed.  An `Action` is what the loop does with it: it dispatches an event, with
the bits the event reports and what the calls on the socket will answer, or `connection_prune` closes it.

A run takes actions that are enabled: an event reports a bit only if it is in the mask, and a connection is closed only if
it has timed out.  `Step cond` is a step whose action also satisfies `cond`, so that a run under a condition on its steps
is a chain of `Step cond`.
-/

namespace Lotos

structure ConnState where
  conn : Conn
  lastResult : Option Status
  activeTime : ℤ
  closed : Bool

/-- The connection that `connection_accept` has made: `request_init`, and `EPOLLIN` in the mask. -/
def ConnState.accept (nextFd : ℕ) (now : ℤ) : ConnState where
  conn := ⟨.fresh, true, false, nextFd, ⟨[], [], false, 0, [], [], []⟩⟩
  lastResult := none
  activeTime := now
  closed := false

inductive Action where
  /-- an event at time `now`: for `EPOLLIN` the results of `recv`, for `EPOLLOUT` those of `send` and `sendfile` -/
  | event (now : ℤ) (input : Option (Env × List RecvResult)) (output : Option (List SendResult × List SendResult))
  | close (now : ℤ)

/-- `connecion_set_expired` after `ERROR`, `connecion_set_reactivated` otherwise. -/
def ConnState.finish (s : ConnState) (now : ℤ) (res : Status × Conn) : ConnState :=
  { s with
    conn := res.2
    lastResult := some res.1
    activeTime := if res.1 = .error then 0 else now }

/-- The branch of `EPOLLIN`. -/
def ConnState.input (s : ConnState) (now : ℤ) (env : Env) (recvs : List RecvResult) : Except Fault ConnState :=
  match requestHandle env recvs s.conn with
  | .ok res => .ok (s.finish now res)
  | .error e => .error e

/-- The branch of `EPOLLOUT`. -/
def ConnState.output (s : ConnState) (now : ℤ) (sends files : List SendResult) : ConnState :=
  s.finish now (responseHandle sends files s.conn)

/-- The body of the loop over the events, for an event on this connection, and `connection_close`. -/
def ConnState.apply (timeout : ℤ) (s : ConnState) : Action → Except Fault ConnState
  | .event now input output =>
    -- `connecion_is_expired`
    if now - s.activeTime > timeout then .ok s
    else
      match input with
      | some (env, recvs) =>
        match s.input now env recvs, output with
        | .ok s', some (sends, files) => .ok (s'.output now sends files)
        | res, _ => res
      | none =>
        match output with
        | some (sends, files) => .ok (s.output now sends files)
        | none => .ok s
  | .close _ => .ok { s with closed := true }

/-- What the event loop and the kernel allow. -/
def Action.Enabled (timeout : ℤ) (s : ConnState) : Action → Prop
  | .event _ input output =>
    s.closed = false ∧ (input ≠ none → s.conn.epollIn = true) ∧ (output ≠ none → s.conn.epollOut = true)
  | .close now => s.closed = false ∧ now - s.activeTime ≥ timeout

/-- A step under a condition on the state and the action. -/
def Step (timeout : ℤ) (cond : ConnState → Action → Prop) (s s' : ConnState) : Prop :=
  ∃ a : Action, a.Enabled timeout s ∧ cond s a ∧ s.apply timeout a = .ok s'

/-- A run of steps that satisfy the condition. -/
abbrev Run (timeout : ℤ) (cond : ConnState → Action → Prop) : ConnState → ConnState → Prop :=
  Relation.ReflTransGen (Step timeout cond)

/-- No condition. -/
def anyStep : ConnState → Action → Prop := fun _ _ => True

/-- **The invariant rule.**  What holds of a state, and is kept by every branch of the loop, holds along every run. -/
theorem Run.inv {timeout : ℤ} {cond : ConnState → Action → Prop} {s₀ s : ConnState} (P : ConnState → Prop)
    (hstep : ∀ s s', P s → Step timeout cond s s' → P s') (hrun : Run timeout cond s₀ s) (h₀ : P s₀) : P s := by
  induction hrun with
  | refl => exact h₀
  | tail _ hs ih => exact hstep _ _ ih hs

/-! ### Running a list of actions -/

instance (timeout : ℤ) (s : ConnState) (a : Action) : Decidable (a.Enabled timeout s) := by
  unfold Action.Enabled
  cases a <;> exact inferInstance

section Exec

variable (timeout : ℤ) (cond : ConnState → Action → Prop) [∀ s a, Decidable (cond s a)]

/-- The state after the actions, if each of them is enabled and satisfies the condition. -/
def ConnState.exec (s : ConnState) : List Action → Option ConnState
  | [] => some s
  | a :: rest =>
    if a.Enabled timeout s ∧ cond s a then
      match s.apply timeout a with
      | .ok s' => s'.exec rest
      | .error _ => none
    else none

theorem exec_run {s s' : ConnState} {as : List Action} (h : s.exec timeout cond as = some s') : Run timeout cond s s' := by
  induction as generalizing s with
  | nil =>
    cases h
    exact .refl
  | cons a rest ih =>
    simp only [ConnState.exec] at h
    split_ifs at h with hen
    split at h
    · rename_i s₁ happly
      exact .head ⟨a, hen.1, hen.2, happly⟩ (ih h)
    · cases h

theorem observe_ok {ε α β : Type} {x : Except ε α} (f : α → β) {b : β} (h : x.toOption.map f = some b) :
    ∃ a, x = .ok a ∧ f a = b := by
  cases x with
  | error e => cases h
  | ok a => exact ⟨a, rfl, Option.some.inj h⟩

theorem exec_observe {α : Type} (s : ConnState) (as : List Action) (f : ConnState → α) {x : α}
    (h : (s.exec timeout cond as).map f = some x) : ∃ s', Run timeout cond s s' ∧ f s' = x := by
  obtain ⟨s', hs', hx⟩ := Option.map_eq_some_iff.mp h
  exact ⟨s', exec_run timeout cond hs', hx⟩

end Exec

instance (s : ConnState) (a : Action) : Decidable (anyStep s a) := inferInstanceAs (Decidable True)

/-- A file system in which every path is a file with this content. -/
def Env.page (content : List Byte) : Env where
  openat _ := some (.regular content)
  date := []
  errPage := ⟨[], [], []⟩

/-- An event that reports `EPOLLIN`, with these bytes to receive. -/
def Action.recv (now : ℤ) (env : Env) (bs : List Byte) : Action := .event now (some (env, [.data bs])) none

/-- An event that reports `EPOLLOUT`. -/
def Action.send (now : ℤ) (sends files : List SendResult) : Action := .event now none (some (sends, files))

end Lotos
