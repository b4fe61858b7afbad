import LazyLisp.Proofs.Relational
import LazyLisp.Session

/-!
# Calls on a session

What a user does to a session is a sequence of calls. Three operations underlie all of them:
starting over, evaluating a source and showing its value. So a relation between sessions that these
three respect is respected by every call, whether it succeeds or fails; and so is a property of
sessions, which is a relation of a session with itself.
-/

namespace LazyLisp.Session

/-- A call on a session. -/
inductive Call where
  | run (source : String)
  | runBytes (bytes : List UInt8)
  | evalSource (source : String)
  | reset

/-- What a call gives, a reset nothing, and the session after it. -/
def call (s : Session) : Call → Option (Except Diagnostic Value) × Session
  | .run source => (some (s.run source).1, (s.run source).2)
  | .runBytes bytes => (some (s.runBytes bytes).1, (s.runBytes bytes).2)
  | .evalSource source => (some (s.evalSource source).1, (s.evalSource source).2)
  | .reset => (none, s.reset)

/-- The session after some calls. -/
def after (s : Session) (calls : List Call) : Session :=
  calls.foldl (fun s c => (s.call c).2) s

/-- What `run` does after its reset. -/
def evalAndShow (s : Session) (source : String) : Outcome Value :=
  match s.evalSource source with
  | (.error d, s) => (.error d, s)
  | (.ok v, s) => (.ok v, s.emit v)

theorem evalAndShow_eq (s : Session) (source : String) :
    s.evalAndShow source =
      match (s.evalSource source).1 with
      | .error d => (.error d, (s.evalSource source).2)
      | .ok v => (.ok v, (s.evalSource source).2.emit v) := by
  unfold evalAndShow
  obtain ⟨_ | v, after⟩ := s.evalSource source <;> rfl

/-- Both fail with the same report or neither fails, and values and sessions correspond. -/
structure Alike (R : Session → Session → Prop) (V : Value → Value → Prop)
    (outcome outcome' : Outcome Value) : Prop where
  result : ExceptRel V outcome.1 outcome'.1
  session : R outcome.2 outcome'.2

/-- The three operations respect the relation `R`, with values that correspond by `V`. -/
structure Bisimulation (R : Session → Session → Prop) (V : Value → Value → Prop) : Prop where
  reset : ∀ {s s'}, R s s' → R s.reset s'.reset
  evalSource : ∀ {s s'}, R s s' → ∀ source, Alike R V (s.evalSource source) (s'.evalSource source)
  emit : ∀ {s s' v v'}, R s s' → V v v' → R (s.emit v) (s'.emit v')

namespace Bisimulation

variable {R : Session → Session → Prop} {V : Value → Value → Prop} {s s' : Session}

theorem evalAndShow (b : Bisimulation R V) (h : R s s') (source : String) :
    Alike R V (s.evalAndShow source) (s'.evalAndShow source) := by
  obtain ⟨result, session⟩ := b.evalSource h source
  rw [evalAndShow_eq, evalAndShow_eq]
  obtain ⟨v, v', e, e', values⟩ | ⟨d, e, e'⟩ := result.cases
  · rw [e, e']
    exact ⟨.ok values, b.emit session values⟩
  · rw [e, e']
    exact ⟨.error d, session⟩

theorem run (b : Bisimulation R V) (h : R s s') (source : String) :
    Alike R V (s.run source) (s'.run source) :=
  b.evalAndShow (b.reset h) source

theorem call (b : Bisimulation R V) (h : R s s') (c : Call) :
    Option.Rel (ExceptRel V) (s.call c).1 (s'.call c).1 ∧ R (s.call c).2 (s'.call c).2 := by
  cases c with
  | run source =>
    have runs := b.run h source
    exact ⟨.some runs.result, runs.session⟩
  | runBytes bytes =>
    simp only [Session.call, Session.runBytes]
    cases Utf8.decode bytes with
    | error d => exact ⟨.some (.error d), h⟩
    | ok source =>
      have runs := b.run h source
      exact ⟨.some runs.result, runs.session⟩
  | evalSource source =>
    have evaluations := b.evalSource h source
    exact ⟨.some evaluations.result, evaluations.session⟩
  | reset => exact ⟨.none, b.reset h⟩

end Bisimulation

/-- What starting over, evaluating and showing preserve, every call preserves; and what holds of the
value of every source holds of the value of every call. -/
theorem call_preserves {P : Session → Prop} {V : Value → Prop} (hreset : ∀ s, P s → P s.reset)
    (heval : ∀ s source, P s →
      P (s.evalSource source).2 ∧ ∀ v, (s.evalSource source).1 = .ok v → V v)
    (hemit : ∀ s v, P s → V v → P (s.emit v)) {s : Session} (hs : P s) (c : Call) :
    P (s.call c).2 ∧ ∀ v, (s.call c).1 = some (.ok v) → V v := by
  have self : Bisimulation (fun s s' => s = s' ∧ P s) (fun v v' => v = v' ∧ V v) :=
    { reset := by
        rintro s _ ⟨rfl, hs⟩
        exact ⟨rfl, hreset s hs⟩
      evalSource := by
        rintro s _ ⟨rfl, hs⟩ source
        obtain ⟨after, value⟩ := heval s source hs
        refine ⟨?_, rfl, after⟩
        cases result : (s.evalSource source).1 with
        | ok v => exact .ok ⟨rfl, value v result⟩
        | error d => exact .error d
      emit := by
        rintro s _ v _ ⟨rfl, hs⟩ ⟨rfl, hv⟩
        exact ⟨rfl, hemit s v hs hv⟩ }
  obtain ⟨results, -, after⟩ := self.call ⟨rfl, hs⟩ c
  refine ⟨after, fun v same => ?_⟩
  rw [same] at results
  cases results with
  | some related =>
    cases related with
    | ok values => exact values.2

theorem after_preserves {P : Session → Prop} (hcall : ∀ s c, P s → P (s.call c).2) {s : Session}
    (hs : P s) (calls : List Call) : P (s.after calls) := by
  induction calls generalizing s with
  | nil => exact hs
  | cons c calls ih => exact ih (hcall s c hs)

end LazyLisp.Session
