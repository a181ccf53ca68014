import CallWeight.Proofs.PropagationEvents
import CallWeight.Session.Step

/-! # Propagated records are filed once

No signature ever has two propagated records: a record is filed under its signature, in place of the one
that was there. This holds of whatever a propagation makes of a store and of every store that the
commands of a session can make.
-/

namespace CallWeight

/-! ## What computations maintain -/

section Maintains

variable {ε σ α β γ : Type} {P : σ → Prop}

/-- Whether a computation keeps what holds of the state, with or without a result. -/
def Maintains (P : σ → Prop) (x : EStateM ε σ α) : Prop := ∀ s, P s → P (stateAfter x s)

theorem Maintains.ok {x : EStateM ε σ α} (maintains : Maintains P x) {s t : σ} {a : α} (holds : P s)
    (returned : x s = .ok a t) : P t := by
  have after := maintains s holds
  rwa [stateAfter, returned] at after

theorem Maintains.error {x : EStateM ε σ α} (maintains : Maintains P x) {s t : σ} {e : ε}
    (holds : P s) (failed : x s = .error e t) : P t := by
  have after := maintains s holds
  rwa [stateAfter, failed] at after

theorem Maintains.bind {x : EStateM ε σ α} {f : α → EStateM ε σ β} (first : Maintains P x)
    (second : ∀ a, Maintains P (f a)) : Maintains P (x >>= f) := by
  intro s holds
  unfold stateAfter
  cases result : x s with
  | ok a t =>
      rw [bind_of_ok result]
      exact second a t (first.ok holds result)
  | error e t =>
      rw [bind_of_error result]
      exact first.error holds result

theorem Leaves.maintains {view : σ → γ} {Q : γ → Prop} {x : EStateM ε σ α} (leaves : Leaves view x) :
    Maintains (fun s => Q (view s)) x := by
  intro s holds
  have same := leaves s
  exact same.symm ▸ holds

theorem maintains_pure (a : α) : Maintains P (pure a : EStateM ε σ α) := fun _ holds => holds

theorem maintains_ofExcept (result : Except ε α) :
    Maintains P (ofExcept result : EStateM ε σ α) := by
  cases result with
  | ok a => exact fun _ holds => holds
  | error fault => exact fun _ holds => holds

theorem maintains_get : Maintains P (get : EStateM ε σ σ) := fun _ holds => holds

theorem maintains_ite {c : Prop} [Decidable c] {x y : EStateM ε σ α} (yes : Maintains P x)
    (no : Maintains P y) : Maintains P (if c then x else y) := by
  split
  · exact yes
  · exact no

/-- What goes on from the state that it reads may write it back. -/
theorem maintains_seeing {f : σ → EStateM ε σ α} (goesOn : ∀ s, P s → Maintains P (f s)) :
    Maintains P (get >>= f) := fun s holds => goesOn s holds s holds

theorem maintains_mapM {f : α → EStateM ε σ β} (each : ∀ a, Maintains P (f a)) (items : List α) :
    Maintains P (items.mapM f) := by
  induction items with
  | nil => exact maintains_pure _
  | cons a rest ih =>
      rw [List.mapM_cons]
      exact (each a).bind fun _ => ih.bind fun _ => maintains_pure _

theorem maintains_forM {f : α → EStateM ε σ PUnit} (each : ∀ a, Maintains P (f a))
    (item : Option α) : Maintains P (item.forM f) := by
  cases item with
  | none => exact maintains_pure _
  | some a => exact each a

end Maintains

/-! ## Stores -/

/-- Whether no signature has two propagated records. -/
def CostStore.FiledOnce (store : CostStore) : Prop := store.propagated.keys.Nodup

namespace CostStore.FiledOnce

variable {store : CostStore}

theorem put (once : store.FiledOnce) (signature : Text) (r : CostRecord) :
    (store.put signature r).FiledOnce :=
  OrderedMap.nodup_keys_insert once signature r

theorem replaceBest (once : store.FiledOnce) (signature : Text) (r : CostRecord) :
    (store.replaceBest signature r).FiledOnce := by
  unfold CostStore.replaceBest
  split
  · exact once.put signature r
  · split <;> exact once

theorem nodup_entries (once : store.FiledOnce) : store.propagated.entries.Nodup :=
  List.Nodup.of_map Prod.fst once

/-- Entries with one signature are one entry. -/
theorem eq_of_signature (once : store.FiledOnce) {x y : Text × CostRecord}
    (isX : x ∈ store.propagated.entries) (isY : y ∈ store.propagated.entries) (same : x.1 = y.1) :
    x = y :=
  List.inj_on_of_nodup_map once isX isY same

end CostStore.FiledOnce

/-- Whether no signature has two propagated records. -/
def Costs.FiledOnce (costs : Costs) : Prop := costs.store.FiledOnce

namespace Costing

open Propagation (visible overlooks_propagate leaves_inspect leaves_putLocal)

theorem maintains_of_leaves {α : Type} {x : Costing α} (leaves : Leaves visible x) :
    Maintains Costs.FiledOnce x :=
  leaves.maintains (Q := fun seen => seen.1.keys.Nodup)

theorem leaves_extractFrom (count : ℕ) (procedures : List Procedure) :
    Leaves visible (extractFrom count procedures) := by
  induction procedures generalizing count with
  | nil => exact leaves_pure _
  | cons p rest ih =>
      refine (leaves_inspect (Inspecting.leaves_ask _)).bind fun isApplication => ?_
      cases isApplication with
      | false => exact ih count
      | true =>
          exact (leaves_inspect (overlooks_propagate p).extract).bind fun _ =>
            (leaves_putLocal _ _).bind fun _ => ih (count + 1)

theorem leaves_extractAll (procedures : List Procedure) : Leaves visible (extractAll procedures) :=
  (leaves_extractFrom 0 procedures).bind fun _ =>
    (leaves_inspect fun _ => rfl).bind fun _ => leaves_pure _

theorem maintains_fold (p : Procedure) (callee : CostRecord) (depth : ℤ) :
    Maintains Costs.FiledOnce (fold p callee depth) :=
  (maintains_ofExcept _).bind fun _ => maintains_get.bind fun _ =>
    Maintains.bind (fun _ once => CostStore.FiledOnce.replaceBest once _ _) fun _ => maintains_pure _

end Costing

namespace Propagation

variable {g : CallGraph}

theorem maintains_begin (p : Procedure) :
    Maintains Costs.FiledOnce (begin g p) := by
  refine (Costing.maintains_of_leaves (leaves_inspect (Inspecting.leaves_ask _))).bind fun body => ?_
  cases body with
  | none =>
      exact Maintains.bind (fun _ once => CostStore.FiledOnce.put once _ _) fun _ =>
        (Costing.maintains_of_leaves (leaves_inspect ((overlooks_propagate p).debug _ _))).bind fun _ =>
          maintains_pure _
  | some body =>
      have looks := Costing.maintains_of_leaves (leaves_inspect (overlooks_propagate p).depthMap)
      exact (Costing.maintains_of_leaves (leaves_localCost (overlooks_propagate p))).bind fun _ =>
        Maintains.bind (fun _ once => CostStore.FiledOnce.put once _ _) fun _ =>
          looks.bind fun _ => maintains_pure _

theorem filedOnce_enter {costs : Costs} (once : costs.store.FiledOnce) (p : Procedure) :
    (enter (g := g) p costs).1.store.FiledOnce := by
  unfold enter
  cases result : begin g p costs with
  | ok pending after => exact (maintains_begin p).ok once result
  | error fault after =>
      have kept := (maintains_begin p).error once result
      exact kept

theorem filedOnce_foldCall {costs : Costs} (once : costs.store.FiledOnce) (p : Procedure)
    (call : PendingCall g) : (foldCall p call costs).store.FiledOnce := by
  have maintains := Costing.maintains_of_leaves (leaves_cost (overlooks_propagate call.target))
  unfold foldCall
  cases result : Costing.cost call.target costs with
  | ok callee after => exact (maintains.ok once result).put _ _
  | error fault after =>
      have kept := maintains.error once result
      exact kept

theorem filedOnce_drain {s : Propagation g} (once : s.costs.store.FiledOnce) :
    s.drain.costs.store.FiledOnce := by
  fun_induction Propagation.drain s with
  | case1 s idle => exact once
  | case2 s p rest onTop ih => exact ih once
  | case3 s p call pending rest onTop target done isResolved ih =>
      exact ih (filedOnce_foldCall once p call)
  | case4 s p call pending rest onTop target done isNew fault unclear ih => exact ih once
  | case5 s p call pending rest onTop target done isNew isLibrary ih =>
      exact ih (filedOnce_foldCall once p call)
  | case6 s p call pending rest onTop target isNew isApplication costs frames entered ih =>
      have entering := filedOnce_enter (g := g) once call.target
      rw [entered] at entering
      exact ih entering

theorem filedOnce_visit {s : Propagation g} (once : s.costs.store.FiledOnce) (p : Procedure) :
    (s.visit p).costs.store.FiledOnce := by
  unfold visit
  split
  · exact once
  · exact filedOnce_drain (filedOnce_enter once p)

theorem filedOnce_run {costs : Costs} (once : costs.store.FiledOnce) :
    (run g costs).costs.store.FiledOnce := by
  have visited (roots : List Procedure) (s : Propagation g) (started : s.costs.store.FiledOnce) :
      (roots.foldl visit s).costs.store.FiledOnce := by
    induction roots generalizing s with
    | nil => exact started
    | cons p rest ih => exact ih _ (filedOnce_visit started p)
  exact visited _ _ once

end Propagation

namespace Session

/-- The part of a session that commands must not spoil. -/
def FiledOnce (s : Session) : Prop := s.store.FiledOnce

theorem maintains_inspect {α : Type} (x : Inspecting α) : Maintains FiledOnce (SessionM.inspect x) := by
  intro s once
  unfold stateAfter SessionM.inspect
  cases x s.inspection with
  | ok a i => exact once
  | error fault i => exact once

theorem maintains_costing {α : Type} {x : Costing α}
    (maintains : Maintains Costs.FiledOnce x) :
    Maintains FiledOnce (SessionM.costing x) := by
  intro s once
  have start : Costs.FiledOnce { inspection := s.inspection, store := s.store } := once
  unfold stateAfter SessionM.costing
  cases result : x { inspection := s.inspection, store := s.store } with
  | ok a costs => exact maintains.ok start result
  | error fault costs => exact maintains.error start result

theorem maintains_lookup (name : Json) : Maintains FiledOnce (SessionM.lookup name) :=
  maintains_inspect _

theorem maintains_statement (place : Json) : Maintains FiledOnce (SessionM.statement place) := by
  refine (maintains_ofExcept _).bind fun name => (maintains_lookup name).bind fun p =>
    (maintains_ofExcept _).bind fun position => ?_
  cases p.body with
  | none => exact fun _ once => once
  | some body =>
      refine (maintains_ofExcept _).bind fun n => ?_
      cases ((SessionM.positionOf n body.length).bind fun n => body[n]?.map (n, ·)) with
      | none => exact fun _ once => once
      | some found => exact maintains_pure _

theorem maintains_cost (p : Procedure) : Maintains FiledOnce (SessionM.costing (Costing.cost p)) :=
  maintains_costing (Costing.maintains_of_leaves
    (Propagation.leaves_cost (Propagation.overlooks_propagate p)))

theorem maintains_augmenterFor (fresh : Bool) (config : Option Json)
    (rules : Option (List DispatchRule)) : Maintains FiledOnce (augmenterFor fresh config rules) := by
  refine maintains_get.bind fun s => ?_
  split
  · exact maintains_pure _
  · cases config with
    | some document => exact (maintains_ofExcept _).bind fun _ => maintains_pure _
    | none => exact maintains_pure _

theorem maintains_judgeBy (context : DispatchRule.Context) (p : Procedure) (site : Site)
    (s : Statement) (rule : DispatchRule) : Maintains FiledOnce (judgeBy context p site s rule) := by
  refine maintains_get.bind fun _ => (maintains_inspect _).bind fun verdict => ?_
  split <;> exact fun _ once => once

theorem maintains_propagate {go : (g : CallGraph) → Propagation g → Propagation g}
    (keeps : ∀ g (s : Propagation g), s.costs.FiledOnce → (go g s).costs.FiledOnce) :
    Maintains FiledOnce (propagate go) :=
  fun s once => keeps s.graph _ once

theorem maintains_execute (command : Command) : Maintains FiledOnce (execute command) := by
  cases command with
  | addClass document =>
      exact (maintains_inspect _).bind fun _ => maintains_get.bind fun _ => maintains_pure _
  | setFailures failures => exact Maintains.bind (fun _ once => once) fun _ => maintains_pure _
  | procedure name =>
      exact (maintains_inspect _).bind fun _ => maintains_get.bind fun _ => maintains_pure _
  | depths name =>
      exact (maintains_lookup _).bind fun _ => (maintains_inspect _).bind fun _ => maintains_pure _
  | entries =>
      exact (maintains_inspect _).bind fun _ => maintains_get.bind fun _ =>
        (maintains_inspect _).bind fun _ => maintains_pure _
  | build =>
      exact (maintains_inspect _).bind fun _ =>
        Maintains.bind (fun _ once => once) fun _ => maintains_pure _
  | addEdge source place target kind =>
      refine (maintains_ofExcept _).bind fun _ => (maintains_lookup _).bind fun _ =>
        (maintains_statement _).bind fun _ => (maintains_lookup _).bind fun _ =>
          maintains_seeing fun s once => maintains_ite (maintains_pure _) ?_
      exact Maintains.bind (fun _ _ => once) fun _ => maintains_pure _
  | edgesOutOf place =>
      exact (maintains_statement _).bind fun _ => maintains_get.bind fun _ => maintains_pure _
  | edgesOf name =>
      exact (maintains_lookup _).bind fun _ => maintains_get.bind fun _ => maintains_pure _
  | graph | syntheticEdges | store | summary | issues =>
      exact maintains_get.bind fun _ => maintains_pure _
  | augment fresh config rules =>
      exact (maintains_augmenterFor _ _ _).bind fun _ => Maintains.bind (fun _ once => once) fun _ =>
        (maintains_inspect _).bind fun _ => maintains_seeing fun s once =>
          Maintains.bind (fun _ _ => once) fun _ => maintains_pure _
  | judge place =>
      exact (maintains_inspect _).bind fun _ => maintains_get.bind fun _ =>
        (maintains_inspect _).bind fun _ => (maintains_statement _).bind fun _ =>
          (maintains_mapM (maintains_judgeBy _ _ _ _) _).bind fun _ => maintains_pure _
  | extract name =>
      exact (maintains_lookup _).bind fun _ => (maintains_inspect _).bind fun _ => maintains_pure _
  | extractAll names =>
      have counted (procedures : List Procedure) :=
        maintains_costing (Costing.maintains_of_leaves (Costing.leaves_extractAll procedures))
      cases names with
      | some names =>
          exact (maintains_ofExcept _).bind fun _ => (maintains_mapM maintains_lookup _).bind fun _ =>
            (counted _).bind fun _ => maintains_pure _
      | none =>
          exact (maintains_inspect _).bind fun _ => maintains_get.bind fun _ =>
            (counted _).bind fun _ => maintains_pure _
  | cost name => exact (maintains_lookup _).bind fun p => (maintains_cost p).bind fun _ => maintains_pure _
  | localCost name =>
      exact (maintains_lookup _).bind fun p =>
        (maintains_costing (Costing.maintains_of_leaves
          (Propagation.leaves_localCost (Propagation.overlooks_propagate p)))).bind fun _ =>
            maintains_pure _
  | put name static approx isLocal =>
      refine (maintains_lookup _).bind fun p => (maintains_ofExcept _).bind fun static =>
        (maintains_ofExcept _).bind fun approx => Maintains.bind ?_ fun _ => maintains_pure _
      intro s once
      cases isLocal with
      | true => exact once
      | false => exact CostStore.FiledOnce.put once _ _
  | fold name callee depth =>
      exact (maintains_lookup _).bind fun p => (maintains_cost p).bind fun _ =>
        (maintains_lookup _).bind fun q => (maintains_cost q).bind fun _ =>
          (maintains_ofExcept _).bind fun _ =>
            (maintains_costing (Costing.maintains_fold _ _ _)).bind fun _ => maintains_pure _
  | lookup name =>
      exact (maintains_lookup _).bind fun _ => maintains_get.bind fun _ => maintains_pure _
  | visit name =>
      exact (maintains_lookup _).bind fun p =>
        (maintains_propagate fun _ _ once => Propagation.filedOnce_visit once p).bind fun _ =>
          maintains_get.bind fun _ => maintains_pure _
  | run =>
      exact Maintains.bind (fun _ once => once) fun _ => (maintains_inspect _).bind fun _ =>
        (maintains_propagate fun _ _ once => Propagation.filedOnce_run once).bind fun _ =>
          maintains_get.bind fun _ => maintains_pure _
  | isResolved name =>
      exact (maintains_lookup _).bind fun _ => maintains_get.bind fun _ => maintains_pure _
  | costs name =>
      have writable (r : Option CostRecord) :
          Maintains FiledOnce (r.forM fun r => ofExcept r.requireWritable : SessionM PUnit) :=
        maintains_forM (fun _ => maintains_ofExcept _) r
      exact (maintains_lookup _).bind fun p => maintains_get.bind fun s => (writable _).bind fun _ =>
        (writable _).bind fun _ => (maintains_cost p).bind fun _ => maintains_pure _
  | ranking top =>
      exact (maintains_ofExcept _).bind fun _ => maintains_get.bind fun _ => maintains_pure _
  | reports top markers color =>
      exact maintains_get.bind fun _ => (maintains_ofExcept _).bind fun _ =>
        (maintains_ofExcept _).bind fun _ => (maintains_ofExcept _).bind fun _ =>
          (maintains_ofExcept _).bind fun _ => maintains_pure _
  | line name heading =>
      exact (maintains_lookup _).bind fun p => (maintains_cost p).bind fun _ =>
        (maintains_ofExcept _).bind fun _ => maintains_pure _

theorem filedOnce_step {s : Session} (once : s.FiledOnce) (command : Command) :
    (step command s).2.FiledOnce := by
  unfold step
  cases result : execute command s with
  | ok reply after => exact (maintains_execute command).ok once result
  | error fault after => exact (maintains_execute command).error once result

/-- A session after some commands, whatever their replies. -/
def after (s : Session) (commands : List Command) : Session :=
  commands.foldl (fun s command => (step command s).2) s

theorem filedOnce_after {s : Session} (once : s.FiledOnce) (commands : List Command) :
    (s.after commands).FiledOnce := by
  induction commands generalizing s with
  | nil => exact once
  | cons command rest ih => exact ih (filedOnce_step once command)

end Session

/-! ## Analyses -/

namespace Analysis

theorem filedOnce_of_costs {g : CallGraph} {i after : Inspection} {store : CostStore}
    (returned : costs g i = .ok store after) : store.FiledOnce := by
  let told := i.info .analysis "Counting how many calls each procedure does"
  have tells : Inspecting.info .analysis "Counting how many calls each procedure does" i =
      .ok () told := rfl
  have started : (get : Inspecting Inspection) told = .ok told told := rfl
  unfold costs at returned
  rw [bind_of_ok tells, bind_of_ok started] at returned
  cases extracted : Costing.extractAll told.program.applicationProcedures { inspection := told } with
  | error fault counted =>
      simp only [extracted] at returned
      cases returned
  | ok n counted =>
      simp only [extracted] at returned
      cases returned
      have empty : Costs.FiledOnce { inspection := told } := List.nodup_nil
      have maintains := Costing.maintains_of_leaves (Costing.leaves_extractAll
        told.program.applicationProcedures)
      exact Propagation.filedOnce_run (maintains.ok empty extracted)

theorem filedOnce_of_ofGraph {rules : List DispatchRule} {g : CallGraph} {i after : Inspection}
    {a : Analysis} (returned : ofGraph rules g i = .ok a after) : a.store.FiledOnce := by
  obtain ⟨seen, i₁, -, others⟩ := ok_of_bind returned
  obtain ⟨done, i₂, -, others⟩ := ok_of_bind others
  obtain ⟨augmented, i₃, -, others⟩ := ok_of_bind others
  obtain ⟨store, i₄, priced, others⟩ := ok_of_bind others
  obtain ⟨i₅, -, others⟩ := ok_of_optional others
  obtain ⟨noted, i₆, -, others⟩ := ok_of_bind others
  obtain ⟨i₇, -, others⟩ := ok_of_optional others
  cases others
  exact filedOnce_of_costs priced

/-- The analyses that there can be: those that an analysis of a graph returns and those that a session
    stands for after some commands. -/
inductive IsResult : Analysis → Prop
  | returned {rules : List DispatchRule} {g : CallGraph} {i after : Inspection} {a : Analysis} :
      ofGraph rules g i = .ok a after → IsResult a
  | session (i : Inspection) (commands : List Command) :
      IsResult (Session.after { inspection := i } commands).analysis

theorem IsResult.filedOnce {a : Analysis} (isResult : a.IsResult) : a.store.FiledOnce := by
  cases isResult with
  | returned returned => exact filedOnce_of_ofGraph returned
  | session i commands => exact Session.filedOnce_after (s := { inspection := i }) List.nodup_nil commands

end Analysis

end CallWeight
