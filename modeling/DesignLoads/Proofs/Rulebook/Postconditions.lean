import DesignLoads.Proofs.Rulebook.Memoization

/-! What a query leaves behind, whether it succeeds or fails. -/

namespace DesignLoads

namespace Query

variable {α β : Type} {P E : Progress → Prop} {Q : α → Progress → Prop}

/-- From progress with `P` on, an answer comes with progress as `Q` says, and a failure with
progress as `E` says. -/
def Ensures (P : Progress → Prop) (q : Query α) (Q : α → Progress → Prop)
    (E : Progress → Prop) : Prop :=
  ∀ p, P p → match q.ask p with
    | (.ok a, p') => Q a p'
    | (.error _, p') => E p'

theorem ensures_pure {a : α} (h : ∀ p, P p → Q a p) : Ensures P (pure a) Q E := h

theorem ensures_liftExcept {r : Except Failure α} (h : ∀ a, r = .ok a → ∀ p, P p → Q a p)
    (he : ∀ p, P p → E p) : Ensures P (liftExcept r) Q E := by
  intro p hp
  cases r with
  | ok a => exact h a rfl p hp
  | error e => exact he p hp

/-- A failure of either part is a failure of the whole. -/
theorem Ensures.bind {q : Query α} {k : α → Query β} {R : β → Progress → Prop}
    (hq : Ensures P q Q E) (hk : ∀ a, Ensures (Q a) (k a) R E) : Ensures P (q >>= k) R E := by
  intro p hp
  have hfirst := hq p hp
  rw [ask_bind]
  cases h : q.ask p with
  | mk r p' =>
    rw [h] at hfirst
    cases r with
    | ok a => exact hk a p' hfirst
    | error e => exact hfirst

end Query

end DesignLoads
