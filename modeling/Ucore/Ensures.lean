import Ucore.Call

/-! Rules of pre- and postconditions for calls. A call that fails promises
something else than one that returns, and where it stops the system it was
allowed to. The rules go through a call forwards, from the state it begins in. -/
namespace Ucore.Call
variable {σ τ α β : Type}

/-- From `state` the call returns with `post`, fails with `bad`, or stops the system where `halt` says it may. -/
structure Settles (call : Call σ α) (post : α → σ → Prop) (bad : Int → σ → Prop) (halt : Prop) (state : σ) : Prop where
  returns : ∀ value after, Returns call state value after → post value after
  fails : ∀ ret after, Fails call state ret after → bad ret after
  stops : call state = none → halt

/-- The call may stop the system. -/
def Ensures (call : Call σ α) (post : α → σ → Prop) (bad : Int → σ → Prop) (state : σ) : Prop :=
  Settles call post bad True state

variable {call : Call σ α} {post post' : α → σ → Prop} {bad bad' : Int → σ → Prop} {next : α → Call σ β}
  {done : β → σ → Prop} {condition : Bool} {state : σ} {value : α} {code : Int} {halt halt' : Prop}

namespace Settles

theorem weaken (settles : Settles call post bad halt state) (leave : ∀ value after, post value after → post' value after)
    (failed : ∀ ret after, bad ret after → bad' ret after) : Settles call post' bad' halt state :=
  ⟨fun value after ran => leave _ _ (settles.returns value after ran),
    fun ret after ran => failed _ _ (settles.fails ret after ran), settles.stops⟩

theorem halts (settles : Settles call post bad halt state) (may : halt → halt') : Settles call post bad halt' state :=
  ⟨settles.returns, settles.fails, fun stopped => may (settles.stops stopped)⟩

/-- A call whose outcome is known. -/
theorem of_run {after : σ} (ran : Returns call state value after) (held : post value after) :
    Settles call post bad halt state := by
  refine ⟨fun _ _ other => ?_, fun _ _ failed => ?_, fun stopped => ?_⟩
  · rw [Returns, ran] at other
    cases other
    exact held
  · rw [Fails, ran] at failed
    cases failed
  · rw [ran] at stopped
    cases stopped

/-- What every outcome of a call has in common, and what it is. -/
theorem and {call : Call σ α} {post₂ : α → σ → Prop} {bad₂ : Int → σ → Prop} {halt₂ : Prop}
    (first : Settles call post bad halt state) (second : Settles call post₂ bad₂ halt₂ state) :
    Settles call (fun value after => post value after ∧ post₂ value after)
      (fun ret after => bad ret after ∧ bad₂ ret after) (halt ∧ halt₂) state :=
  ⟨fun value after ran => ⟨first.returns value after ran, second.returns value after ran⟩,
    fun ret after failed => ⟨first.fails ret after failed, second.fails ret after failed⟩,
    fun stopped => ⟨first.stops stopped, second.stops stopped⟩⟩

theorem bind (first : Settles call (fun value => Settles (next value) done bad halt) bad halt state) :
    Settles (call >>= next) done bad halt state := by
  refine ⟨fun result after ran => ?_, fun ret after failed => ?_, fun stopped => ?_⟩
  · obtain ⟨value, between, ran, rest⟩ := returns_bind.mp ran
    exact (first.returns _ _ ran).returns _ _ rest
  · rcases fails_bind.mp failed with failed | ⟨value, between, ran, failed⟩
    · exact first.fails _ _ failed
    · exact (first.returns _ _ ran).fails _ _ failed
  · rcases stops_bind.mp stopped with stopped | ⟨value, between, ran, stopped⟩
    · exact first.stops stopped
    · exact (first.returns _ _ ran).stops stopped

theorem pure (held : post value state) : Settles (pure value) post bad halt state := by
  refine ⟨fun _ after ran => ?_, fun _ _ failed => absurd failed not_fails_pure, fun never => by cases never⟩
  obtain ⟨rfl, rfl⟩ := returns_pure.mp ran
  exact held

theorem fail (held : bad code state) : Settles (fail code : Call σ α) post bad halt state := by
  refine ⟨fun _ _ ran => absurd ran (not_returns_fail _), fun _ after failed => ?_, fun never => by cases never⟩
  obtain ⟨rfl, rfl⟩ := fails_fail.mp failed
  exact held

theorem stop (held : halt) : Settles (stop : Call σ α) post bad halt state :=
  ⟨fun _ _ ran => absurd ran not_returns_stop, fun _ _ failed => absurd failed not_fails_stop, fun _ => held⟩

/-- Behind an assertion its condition holds. -/
theorem assert {post : Unit → σ → Prop} (held : condition = true → post () state)
    (failing : condition = false → halt) :
    Settles (assert condition) post bad halt state := by
  refine ⟨fun _ after ran => ?_, fun _ _ failed => absurd failed not_fails_assert, fun stopped => ?_⟩
  · obtain ⟨holds, rfl⟩ := returns_assert.mp ran
    exact held holds
  · cases condition with
    | true => cases stopped
    | false => exact failing rfl

theorem gets {read : σ → α} (held : post (read state) state) : Settles (gets read) post bad halt state := by
  refine ⟨fun _ after ran => ?_, fun _ _ failed => absurd failed not_fails_gets, fun never => by cases never⟩
  obtain ⟨rfl, rfl⟩ := returns_gets.mp ran
  exact held

theorem modify {post : Unit → σ → Prop} {update : σ → σ} (held : post () (update state)) :
    Settles (modify update) post bad halt state := by
  refine ⟨fun _ after ran => ?_, fun _ _ failed => absurd failed not_fails_modify, fun never => by cases never⟩
  obtain rfl := returns_modify.mp ran
  exact held

theorem onlyIf {call : Call σ Unit} {post : Unit → σ → Prop}
    (then_case : condition = true → Settles call post bad halt state) (else_case : condition = false → post () state) :
    Settles (onlyIf condition call) post bad halt state := by
  cases condition with
  | true => exact then_case rfl
  | false => exact pure (else_case rfl)

/-- An attempt does not fail. -/
theorem attempt {post : Except Int α → σ → Prop}
    (settles : Settles call (fun value => post (.ok value)) (fun ret => post (.error ret)) halt state) :
    Settles (attempt call) post bad halt state := by
  refine ⟨fun outcome after ran => ?_, fun _ _ failed => absurd failed not_fails_attempt, fun stopped => ?_⟩
  · cases outcome with
    | error ret => exact settles.fails _ _ (returns_attempt_error.mp ran)
    | ok value => exact settles.returns _ _ (returns_attempt_ok.mp ran)
  · exact settles.stops (Option.map_eq_none_iff.mp stopped)

theorem within {part : σ → τ} {put : τ → σ → σ} {inner : Call τ α}
    (settles : Settles inner (fun value reached => post value (put reached state))
      (fun ret reached => bad ret (put reached state)) halt (part state)) :
    Settles (within part put inner) post bad halt state := by
  refine ⟨fun value after ran => ?_, fun ret after failed => ?_, fun stopped => ?_⟩
  · obtain ⟨reached, inner, rfl⟩ := returns_within.mp ran
    exact settles.returns _ _ inner
  · obtain ⟨reached, inner, rfl⟩ := fails_within.mp failed
    exact settles.fails _ _ inner
  · exact settles.stops (Option.map_eq_none_iff.mp stopped)

end Settles

namespace Ensures

theorem of_keeps {holds : σ → Prop} (keeps : Keeps holds call) (held : holds state) :
    Ensures call (fun _ => holds) (fun _ => holds) state :=
  ⟨(keeps_iff.mp keeps).1 state held, (keeps_iff.mp keeps).2 state held, fun _ => trivial⟩

theorem keeps {holds : σ → Prop}
    (ensures : ∀ state, holds state → Ensures call (fun _ => holds) (fun _ => holds) state) : Keeps holds call :=
  keeps_iff.mpr ⟨fun state held => (ensures state held).returns, fun state held => (ensures state held).fails⟩

end Ensures
end Ucore.Call
