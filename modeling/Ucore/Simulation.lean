import Ucore.Call

/-! Two calls that run alike on related states: where one stops, fails or returns, so does
the other, with the same outcome and with related states again. Or one follows the other
until it loses its way. One rule for each construct takes both calls apart at once. -/
namespace Ucore.Call
variable {σ τ σ' τ' α β : Type}

def Simulates (rel : σ → τ → Prop) (first : Call σ α) (second : Call τ α) : Prop :=
  ∀ s t, rel s t → Option.Rel (fun a b => a.1 = b.1 ∧ rel a.2 b.2) (first s) (second t)

variable {rel : σ → τ → Prop} {first : Call σ α} {second : Call τ α}

namespace Simulates

theorem pure (value : α) : Simulates rel (Pure.pure value) (Pure.pure value) := fun _ _ related => .some ⟨rfl, related⟩

theorem stop : Simulates rel (Call.stop : Call σ α) Call.stop := fun _ _ _ => .none

theorem bind {rest : α → Call σ β} {rest' : α → Call τ β} (begin : Simulates rel first second)
    (goes_on : ∀ value, Simulates rel (rest value) (rest' value)) : Simulates rel (first >>= rest) (second >>= rest') := by
  intro s t related
  have run := begin s t related
  cases left : first s with
  | none =>
    rw [left] at run
    cases right : second t with
    | none =>
      simp only [Bind.bind, left, right]
      exact .none
    | some reached =>
      rw [right] at run
      cases run
  | some reached =>
    rw [left] at run
    cases right : second t with
    | none =>
      rw [right] at run
      cases run
    | some reached' =>
      rw [right] at run
      obtain ⟨outcome, after⟩ := reached
      obtain ⟨outcome', after'⟩ := reached'
      cases run with
      | some both =>
        obtain ⟨same, related'⟩ : outcome = outcome' ∧ rel after after' := both
        subst same
        simp only [Bind.bind, left, right]
        cases outcome with
        | error ret => exact .some ⟨rfl, related'⟩
        | ok value => exact goes_on value after after' related'

theorem gets {read : σ → α} {read' : τ → α} (same : ∀ s t, rel s t → read s = read' t) :
    Simulates rel (Call.gets read) (Call.gets read') := fun s t related => .some ⟨congrArg _ (same s t related), related⟩

theorem modify {update : σ → σ} {update' : τ → τ} (keeps : ∀ s t, rel s t → rel (update s) (update' t)) :
    Simulates rel (Call.modify update) (Call.modify update') := fun s t related => .some ⟨rfl, keeps s t related⟩

theorem onlyIf (condition : Bool) {first : Call σ Unit} {second : Call τ Unit} (then_case : Simulates rel first second) :
    Simulates rel (onlyIf condition first) (onlyIf condition second) := by
  cases condition
  · exact pure ()
  · exact then_case

/-- Calls on parts of the states. -/
theorem within {inside : σ' → τ' → Prop} {part : σ → σ'} {part' : τ → τ'} {put : σ' → σ → σ} {put' : τ' → τ → τ}
    {inner : Call σ' α} {inner' : Call τ' α} (simulates : Simulates inside inner inner')
    (enter : ∀ s t, rel s t → inside (part s) (part' t))
    (leave : ∀ s t u v, rel s t → inside u v → rel (put u s) (put' v t)) :
    Simulates rel (Call.within part put inner) (Call.within part' put' inner') := by
  intro s t related
  have run := simulates _ _ (enter s t related)
  cases left : inner (part s) with
  | none =>
    rw [left] at run
    cases right : inner' (part' t) with
    | none =>
      rw [Call.within, Call.within, left, right]
      exact .none
    | some reached =>
      rw [right] at run
      cases run
  | some reached =>
    rw [left] at run
    cases right : inner' (part' t) with
    | none =>
      rw [right] at run
      cases run
    | some reached' =>
      rw [right] at run
      rw [Call.within, Call.within, left, right]
      cases run with
      | some both => exact .some ⟨both.1, leave s t _ _ related both.2⟩

/-- A run of one call is a run of the other. -/
theorem transfers (simulates : Simulates rel first second) {s : σ} {t after' : τ} (related : rel s t)
    {value : α} (ran : Returns second t value after') : ∃ after, Returns first s value after ∧ rel after after' := by
  have run := simulates s t related
  rw [ran] at run
  cases left : first s with
  | none =>
    rw [left] at run
    cases run
  | some reached =>
    obtain ⟨outcome, after⟩ := reached
    rw [left] at run
    cases run with
    | some both =>
      obtain ⟨same, related'⟩ : outcome = .ok value ∧ rel after after' := both
      subst same
      exact ⟨after, left, related'⟩

end Simulates

/-- A call that may lose its way, for good. Until then it does what another call does on
what can be seen of its state. -/
structure Follows (lost : σ → Prop) (view : σ → τ) (raw : Call σ α) (strict : Call τ α) : Prop where
  remains : Keeps lost raw
  follows : ∀ state outcome after, raw state = some (outcome, after) → ¬ lost after →
    strict (view state) = some (outcome, view after)

variable {lost : σ → Prop} {view : σ → τ} {raw : Call σ α} {strict : Call τ α}

namespace Follows

theorem pure (value : α) : Follows lost view (Pure.pure value) (Pure.pure value) := by
  refine ⟨keeps_pure, fun state outcome after ran _ => ?_⟩
  cases ran
  rfl

theorem fail (ret : Int) : Follows lost view (Call.fail ret : Call σ α) (Call.fail ret) := by
  refine ⟨keeps_fail ret, fun state outcome after ran _ => ?_⟩
  cases ran
  rfl

theorem stop : Follows lost view (Call.stop : Call σ α) Call.stop :=
  ⟨keeps_stop, fun _ _ _ ran => by cases ran⟩

theorem assert (condition : Bool) : Follows lost view (Call.assert condition) (Call.assert condition) := by
  cases condition
  · exact stop
  · exact pure ()

theorem gets {read : σ → α} {read' : τ → α} (same : ∀ state, read' (view state) = read state) :
    Follows lost view (Call.gets read) (Call.gets read') := by
  refine ⟨keeps_gets read, fun state outcome after ran _ => ?_⟩
  cases ran
  rw [Call.gets, same]

theorem modify {update : σ → σ} {update' : τ → τ} (keeps : ∀ state, lost state → lost (update state))
    (same : ∀ state, update' (view state) = view (update state)) :
    Follows lost view (Call.modify update) (Call.modify update') := by
  refine ⟨keeps_modify keeps, fun state outcome after ran _ => ?_⟩
  cases ran
  rw [Call.modify, same]

theorem bind {rest : α → Call σ β} {rest' : α → Call τ β} (begin : Follows lost view raw strict)
    (goes_on : ∀ value, Follows lost view (rest value) (rest' value)) :
    Follows lost view (raw >>= rest) (strict >>= rest') := by
  refine ⟨keeps_bind begin.remains fun value => (goes_on value).remains, fun state outcome after ran found => ?_⟩
  cases first : raw state with
  | none =>
    simp only [Bind.bind, first] at ran
    cases ran
  | some reached =>
    obtain ⟨outcome', between⟩ := reached
    simp only [Bind.bind, first] at ran
    cases outcome' with
    | error ret =>
      cases ran
      have same := begin.follows state _ _ first found
      simp only [Bind.bind, same]
    | ok value =>
      have on_way : ¬ lost between := fun gone => found ((goes_on value).remains between gone outcome after ran)
      have same := begin.follows state _ _ first on_way
      simp only [Bind.bind, same]
      exact (goes_on value).follows between outcome after ran found

theorem onlyIf (condition : Bool) {raw : Call σ Unit} {strict : Call τ Unit} (then_case : Follows lost view raw strict) :
    Follows lost view (Call.onlyIf condition raw) (Call.onlyIf condition strict) := by
  cases condition
  · exact pure ()
  · exact then_case

theorem attempt (follows : Follows lost view raw strict) : Follows lost view (Call.attempt raw) (Call.attempt strict) := by
  refine ⟨keeps_attempt follows.remains, fun state outcome after ran found => ?_⟩
  obtain ⟨⟨inner, reached⟩, ended, same⟩ := Option.map_eq_some_iff.mp ran
  obtain ⟨rfl, rfl⟩ := Prod.mk.inj same
  rw [Call.attempt, follows.follows state inner reached ended found]
  rfl

/-- Calls on parts of the states. -/
theorem within {gone : σ' → Prop} {look : σ' → τ'} {part : σ → σ'} {part' : τ → τ'} {put : σ' → σ → σ} {put' : τ' → τ → τ}
    {inner : Call σ' α} {inner' : Call τ' α} (follows : Follows gone look inner inner')
    (lost_part : ∀ state, lost state ↔ gone (part state)) (view_part : ∀ state, part' (view state) = look (part state))
    (lost_put : ∀ state reached, lost (put reached state) ↔ gone reached)
    (view_put : ∀ state reached, put' (look reached) (view state) = view (put reached state)) :
    Follows lost view (Call.within part put inner) (Call.within part' put' inner') := by
  refine ⟨keeps_within follows.remains (fun state => (lost_part state).mp) fun state reached _ => (lost_put state reached).mpr,
    fun state outcome after ran found => ?_⟩
  obtain ⟨⟨value, reached⟩, ended, same⟩ := Option.map_eq_some_iff.mp ran
  obtain ⟨rfl, rfl⟩ := Prod.mk.inj same
  rw [Call.within, view_part, follows.follows _ value reached ended fun gone => found ((lost_put state reached).mpr gone)]
  exact congrArg (fun seen => some (value, seen)) (view_put state reached)

end Follows
end Ucore.Call
