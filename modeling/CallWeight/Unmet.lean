import CallWeight.Text.Basic

/-! # What a walk has not met yet

A walk over known signatures ends because every step meets one that it had not met before, or leaves
less to do.
-/

namespace CallWeight

/-- The known signatures that are not met yet. -/
def unmet (known met : List Text) : List Text := known.filter (!met.contains ·)

/-- Meeting more leaves no more. -/
theorem length_unmet_le {met later : List Text} (more : met ⊆ later) (known : List Text) :
    (unmet known later).length ≤ (unmet known met).length := by
  simp only [unmet, ← List.countP_eq_length_filter]
  apply List.countP_mono_left
  intro signature _ isUnmet
  simp only [Bool.not_eq_true', List.contains_eq_mem, decide_eq_false_iff_not] at isUnmet ⊢
  exact fun wasMet => isUnmet (more wasMet)

/-- Meeting a known signature for the first time leaves fewer. -/
theorem length_unmet_cons_lt {known met : List Text} {signature : Text}
    (isKnown : signature ∈ known) (isNew : signature ∉ met) :
    (unmet known (signature :: met)).length < (unmet known met).length := by
  induction known with
  | nil => cases isKnown
  | cons other rest ih =>
      by_cases same : other = signature
      · subst same
        have fewer := length_unmet_le (List.subset_cons_self other met) rest
        simp [unmet, isNew]
        simp [unmet] at fewer
        omega
      · have inRest : signature ∈ rest := by
          cases isKnown with
          | head => exact absurd rfl same
          | tail _ inRest => exact inRest
        have fewer := ih inRest
        by_cases wasMet : other ∈ met
        · simpa [unmet, wasMet] using fewer
        · simpa [unmet, wasMet, same] using fewer

end CallWeight
