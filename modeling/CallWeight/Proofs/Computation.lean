import CallWeight.Cost.Propagation
import Mathlib

/-! # Computations step by step

A computation over a state either returns a value or meets a fault, and the state goes on in both
cases. The lemmas here take a sequence of such computations apart at its first step.
-/

namespace CallWeight

section Sequence

variable {ε σ α β : Type} {x : EStateM ε σ α} {f : α → EStateM ε σ β} {s t : σ} {a : α} {e : ε}

theorem bind_of_ok (first : x s = .ok a t) : (x >>= f) s = f a t := by
  simp only [bind, EStateM.bind, first]

theorem bind_of_error (first : x s = .error e t) : (x >>= f) s = .error e t := by
  simp only [bind, EStateM.bind, first]

/-- A sequence returns only what its second part returns after its first part has returned. -/
theorem ok_of_bind {b : β} {u : σ} (returned : (x >>= f) s = .ok b u) :
    ∃ a t, x s = .ok a t ∧ f a t = .ok b u := by
  cases first : x s with
  | ok a t => exact ⟨a, t, rfl, (bind_of_ok first).symm.trans returned⟩
  | error e t => cases (bind_of_error first).symm.trans returned

/-- A step that is only taken sometimes, and only for its effect on the state. -/
theorem ok_of_optional {c : Prop} [Decidable c] {x : EStateM ε σ Unit} {f : Unit → EStateM ε σ β}
    {b : β} {u : σ} (returned : (if c then x >>= f else f ()) s = .ok b u) :
    ∃ t, (t = s ∨ x s = .ok () t) ∧ f () t = .ok b u := by
  by_cases taken : c
  · rw [if_pos taken] at returned
    obtain ⟨done, t, first, others⟩ := ok_of_bind returned
    exact ⟨t, .inr first, others⟩
  · rw [if_neg taken] at returned
    exact ⟨s, .inl rfl, returned⟩

end Sequence

theorem ok_of_ofExcept {ε σ α : Type} {result : Except ε α} {s t : σ} {a : α}
    (returned : (ofExcept result : EStateM ε σ α) s = .ok a t) : t = s ∧ result = .ok a := by
  cases result with
  | ok b =>
      cases returned
      exact ⟨rfl, rfl⟩
  | error fault => cases returned

theorem ok_of_exceptBind {ε α β : Type} {x : Except ε α} {f : α → Except ε β} {b : β}
    (returned : (x >>= f) = .ok b) : ∃ a, x = .ok a ∧ f a = .ok b := by
  cases x with
  | ok a => exact ⟨a, rfl, returned⟩
  | error fault => cases returned

/-- Everything in a list of results is the result for one of the items. -/
theorem mem_of_mapM {ε σ α β : Type} {f : α → EStateM ε σ β} {items : List α} {results : List β}
    {s t : σ} (returned : items.mapM f s = .ok results t) {b : β} (listed : b ∈ results) :
    ∃ a ∈ items, ∃ u v, f a u = .ok b v := by
  induction items generalizing results s with
  | nil =>
      cases returned
      cases listed
  | cons a rest ih =>
      rw [List.mapM_cons] at returned
      obtain ⟨first, u, found, returned⟩ := ok_of_bind returned
      obtain ⟨others, v, foundRest, returned⟩ := ok_of_bind returned
      cases returned
      rcases List.mem_cons.mp listed with rfl | inRest
      · exact ⟨a, List.mem_cons_self, s, u, found⟩
      · obtain ⟨other, isItem, result⟩ := ih foundRest inRest
        exact ⟨other, List.mem_cons_of_mem _ isItem, result⟩

/-- What every round of a loop preserves, the loop preserves. -/
theorem foldlM_preserves {ε σ α β : Type} {f : β → α → EStateM ε σ β} {P : β → σ → Prop}
    {items : List α} {b final : β} {s t : σ}
    (round : ∀ a ∈ items, ∀ b s next u, P b s → f b a s = .ok next u → P next u)
    (start : P b s) (returned : items.foldlM f b s = .ok final t) : P final t := by
  induction items generalizing b s with
  | nil =>
      cases returned
      exact start
  | cons a rest ih =>
      obtain ⟨next, u, first, others⟩ := ok_of_bind returned
      have kept := round a List.mem_cons_self b s next u start first
      exact ih (fun a inRest => round a (List.mem_cons_of_mem _ inRest)) kept others

theorem Inspecting.ask_of_ok {α : Type} {question : Inspection → Except Fault α} {i : Inspection}
    {a : α} (answer : question i = .ok a) : Inspecting.ask question i = .ok a i := by
  have started : (get : Inspecting Inspection) i = .ok i i := rfl
  exact (bind_of_ok started).trans (by rw [answer]; rfl)

theorem Inspecting.ask_of_error {α : Type} {question : Inspection → Except Fault α}
    {i : Inspection} {fault : Fault} (answer : question i = .error fault) :
    Inspecting.ask question i = .error fault i := by
  have started : (get : Inspecting Inspection) i = .ok i i := rfl
  exact (bind_of_ok started).trans (by rw [answer]; rfl)

theorem Costing.inspect_of_ok {α : Type} {x : Inspecting α} {costs : Costs} {a : α}
    {i : Inspection} (result : x costs.inspection = .ok a i) :
    Costing.inspect x costs = .ok a { costs with inspection := i } := by
  simp only [Costing.inspect, result]

theorem Costing.inspect_of_error {α : Type} {x : Inspecting α} {costs : Costs} {fault : Fault}
    {i : Inspection} (result : x costs.inspection = .error fault i) :
    Costing.inspect x costs = .error fault { costs with inspection := i } := by
  simp only [Costing.inspect, result]

namespace Propagation

/-- Register a procedure without a body. -/
def registerLeaf (p : Procedure) (costs : Costs) : Costs :=
  { inspection := costs.inspection.debug .propagation
      ("No body for " ++ p.signature ++ "; resolved as an empty leaf")
    store := costs.store.put p.signature { procedure := some p.signature } }

/-- The beginning of a turn, question by question. -/
theorem begin_eq (g : CallGraph) (p : Procedure) (costs : Costs) :
    begin g p costs =
      match costs.inspection.body p with
      | .error fault => .error fault costs
      | .ok none => .ok [] (registerLeaf p costs)
      | .ok (some body) =>
          match Costing.localCost p costs with
          | .error fault costs => .error fault costs
          | .ok start costs =>
              match Costing.inspect (Inspecting.depthMap p)
                { costs with store := costs.store.put p.signature start } with
              | .error fault costs => .error fault costs
              | .ok depths costs => .ok ((p.placed body).flatMap (callsAt g depths)) costs := by
  cases found : costs.inspection.body p with
  | error fault => exact bind_of_error (Costing.inspect_of_error (Inspecting.ask_of_error found))
  | ok body =>
      refine (bind_of_ok (Costing.inspect_of_ok (Inspecting.ask_of_ok found))).trans ?_
      cases body with
      | none => rfl
      | some body =>
          cases seeded : Costing.localCost p costs with
          | error fault costs => exact bind_of_error seeded
          | ok start costs =>
              refine (bind_of_ok seeded).trans ?_
              have registered : Costing.modifyStore (·.put p.signature start) costs =
                .ok () { costs with store := costs.store.put p.signature start } := rfl
              refine (bind_of_ok registered).trans ?_
              cases looked : Costing.inspect (Inspecting.depthMap p)
                  { costs with store := costs.store.put p.signature start } with
              | error fault costs =>
                  simp only [looked]
                  exact bind_of_error looked
              | ok depths costs =>
                  simp only [looked]
                  exact bind_of_ok looked

end Propagation

end CallWeight
