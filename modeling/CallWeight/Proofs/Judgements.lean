import CallWeight.Proofs.Computation

/-! # Results that are as expected, and faults that are excused

Reading a document or analysing a program may fail in several ways, of which only some are wanted. A
judgement about a computation says what is known about its result if it returns, and which faults it
may end with otherwise. Judgements are put together like the computations themselves.
-/

namespace CallWeight

namespace Fault

def isFormat : Fault → Bool
  | .format _ => true
  | _ => false

def isConfig : Fault → Bool
  | .config _ => true
  | _ => false

/-- The faults of a value of the wrong kind in a slot that is not checked, and those of a file that
    holds no document at all. -/
def isUnchecked : Fault → Bool
  | .notIterable _ | .notHashable _ | .notText .. | .notObject _ => true
  | .notUtf8 | .nestedTooDeeply | .unreadableInteger _ => true
  | _ => false

/-- Whether a fault is a refusal, or comes from a value that should not be there. -/
def Due (refusal : Fault → Bool) (typed : Prop) (fault : Fault) : Prop :=
  refusal fault = true ∨ fault.isUnchecked = true ∧ ¬ typed

end Fault

/-- Whether a result is as expected, or a fault that is excused. -/
inductive Judged {α : Type} (excused : Fault → Prop) (post : α → Prop) : Except Fault α → Prop where
  | ok {a : α} (holds : post a) : Judged excused post (.ok a)
  | error {fault : Fault} (isExcused : excused fault) : Judged excused post (.error fault)

namespace Judged

variable {α β : Type} {excused : Fault → Prop} {post : α → Prop} {next : β → Prop}
  {x : Except Fault α} {f : α → Except Fault β}

theorem bind (first : Judged excused post x) (second : ∀ a, post a → Judged excused next (f a)) :
    Judged excused next (x >>= f) := by
  cases first with
  | ok holds => exact second _ holds
  | error isExcused => exact .error isExcused

theorem imp {weaker : α → Prop} (judged : Judged excused post x) (implies : ∀ a, post a → weaker a) :
    Judged excused weaker x := by
  cases judged with
  | ok holds => exact .ok (implies _ holds)
  | error isExcused => exact .error isExcused

theorem weaken {lenient : Fault → Prop} (judged : Judged excused post x)
    (excuses : ∀ fault, excused fault → lenient fault) : Judged lenient post x := by
  cases judged with
  | ok holds => exact .ok holds
  | error isExcused => exact .error (excuses _ isExcused)

theorem of_ok {a : α} (judged : Judged excused post x) (returned : x = .ok a) : post a := by
  subst returned
  cases judged with
  | ok holds => exact holds

theorem of_error {fault : Fault} (judged : Judged excused post x) (failed : x = .error fault) :
    excused fault := by
  subst failed
  cases judged with
  | error isExcused => exact isExcused

/-- What is known about a result that was returned. -/
theorem and_eq (judged : Judged excused post x) :
    Judged excused (fun a => post a ∧ x = .ok a) x := by
  cases judged with
  | ok holds => exact .ok ⟨holds, rfl⟩
  | error isExcused => exact .error isExcused

theorem map {g : α → β} (judged : Judged excused (fun a => next (g a)) x) :
    Judged excused next (x.map g) := by
  cases judged with
  | ok holds => exact .ok holds
  | error isExcused => exact .error isExcused

theorem mapM {items : List α} {f : α → Except Fault β}
    (each : ∀ a ∈ items, Judged excused next (f a)) :
    Judged excused (fun results => ∀ b ∈ results, next b) (items.mapM f) := by
  induction items with
  | nil => exact .ok fun b listed => nomatch listed
  | cons a rest ih =>
      rw [List.mapM_cons]
      refine (each a List.mem_cons_self).bind fun b first => ?_
      refine (ih fun a inRest => each a (List.mem_cons_of_mem _ inRest)).bind fun others fit => ?_
      exact .ok (List.forall_mem_cons.mpr ⟨first, fit⟩)

theorem forM {items : List α} {f : α → Except Fault PUnit}
    (each : ∀ a ∈ items, Judged excused (fun _ => True) (f a)) :
    Judged excused (fun _ => True) (items.forM f) := by
  induction items with
  | nil => exact .ok trivial
  | cons a rest ih =>
      refine (each a List.mem_cons_self).bind fun _ _ => ?_
      exact ih fun a inRest => each a (List.mem_cons_of_mem _ inRest)

theorem foldlM {items : List α} {round : β → α → Except Fault β}
    (each : ∀ b, next b → ∀ a ∈ items, Judged excused next (round b a)) {b : β} (start : next b) :
    Judged excused next (items.foldlM round b) := by
  induction items generalizing b with
  | nil => exact .ok start
  | cons a rest ih =>
      rw [List.foldlM_cons]
      refine (each b start a List.mem_cons_self).bind fun c kept => ?_
      exact ih (fun b holds a inRest => each b holds a (List.mem_cons_of_mem _ inRest)) kept

theorem cases (judged : Judged excused post x) :
    (∃ a, x = .ok a ∧ post a) ∨ ∃ fault, x = .error fault ∧ excused fault := by
  cases judged with
  | ok holds => exact .inl ⟨_, rfl, holds⟩
  | error isExcused => exact .inr ⟨_, rfl, isExcused⟩

end Judged

/-- The result of a computation without its last state. -/
def outcomeOf {ε σ α : Type} : EStateM.Result ε σ α → Except ε α
  | .ok a _ => .ok a
  | .error e _ => .error e

theorem outcomeOf_ofExcept {ε σ α : Type} (result : Except ε α) (s : σ) :
    outcomeOf ((ofExcept result : EStateM ε σ α) s) = result := by
  cases result <;> rfl

/-- Whether a computation returns what is expected or fails in a way that is excused, as long as its
    state has a property that it keeps. -/
def Meets {σ α : Type} (keeps : σ → Prop) (excused : Fault → Prop) (post : α → Prop)
    (x : EStateM Fault σ α) : Prop :=
  ∀ s, keeps s →
    match x s with
    | .ok a t => post a ∧ keeps t
    | .error fault _ => excused fault

namespace Meets

variable {σ α β : Type} {keeps : σ → Prop} {excused : Fault → Prop} {post : α → Prop}
  {next : β → Prop} {x : EStateM Fault σ α} {f : α → EStateM Fault σ β} {s : σ}

theorem bind (first : Meets keeps excused post x)
    (second : ∀ a, post a → Meets keeps excused next (f a)) :
    Meets keeps excused next (x >>= f) := by
  intro s kept
  have result := first s kept
  cases returned : x s with
  | ok a t =>
      rw [returned] at result
      rw [bind_of_ok returned]
      exact second a result.1 t result.2
  | error fault t =>
      rw [returned] at result
      rw [bind_of_error returned]
      exact result

theorem weaken {lenient : Fault → Prop} (meets : Meets keeps excused post x)
    (excuses : ∀ fault, excused fault → lenient fault) : Meets keeps lenient post x := by
  intro s kept
  have result := meets s kept
  cases returned : x s with
  | ok a t =>
      rw [returned] at result
      exact result
  | error fault t =>
      rw [returned] at result
      exact excuses fault result

theorem pure {a : α} (holds : post a) : Meets keeps excused post (pure a) :=
  fun _ kept => ⟨holds, kept⟩

theorem throw {fault : Fault} (isExcused : excused fault) :
    Meets keeps excused post (throw fault : EStateM Fault σ α) := fun _ _ => isExcused

theorem ofExcept {result : Except Fault α} (judged : Judged excused post result) :
    Meets keeps excused post (ofExcept result) := by
  cases judged with
  | ok holds => exact pure holds
  | error isExcused => exact throw isExcused

theorem modify {change : σ → σ} (kept : ∀ s, keeps s → keeps (change s)) :
    Meets keeps excused (fun _ => True) (modify change) := fun s holds => ⟨trivial, kept s holds⟩

theorem mapM {items : List α} {f : α → EStateM Fault σ β}
    (each : ∀ a ∈ items, Meets keeps excused next (f a)) :
    Meets keeps excused (fun results => ∀ b ∈ results, next b) (items.mapM f) := by
  induction items with
  | nil => exact pure fun b listed => nomatch listed
  | cons a rest ih =>
      rw [List.mapM_cons]
      refine (each a List.mem_cons_self).bind fun b first => ?_
      refine (ih fun a inRest => each a (List.mem_cons_of_mem _ inRest)).bind fun others fit => ?_
      exact pure (List.forall_mem_cons.mpr ⟨first, fit⟩)

theorem foldlM {items : List α} {round : β → α → EStateM Fault σ β}
    (each : ∀ b, next b → ∀ a ∈ items, Meets keeps excused next (round b a)) {b : β}
    (start : next b) : Meets keeps excused next (items.foldlM round b) := by
  induction items generalizing b with
  | nil => exact pure start
  | cons a rest ih =>
      rw [List.foldlM_cons]
      refine (each b start a List.mem_cons_self).bind fun c kept => ?_
      exact ih (fun b holds a inRest => each b holds a (List.mem_cons_of_mem _ inRest)) kept

theorem cases (meets : Meets keeps excused post x) (kept : keeps s) :
    (∃ a t, x s = .ok a t ∧ post a) ∨ ∃ fault t, x s = .error fault t ∧ excused fault := by
  have result := meets s kept
  cases returned : x s with
  | ok a t =>
      rw [returned] at result
      exact .inl ⟨a, t, rfl, result.1⟩
  | error fault t =>
      rw [returned] at result
      exact .inr ⟨fault, t, rfl, result⟩

theorem judged (meets : Meets keeps excused post x) (kept : keeps s) :
    Judged excused post (outcomeOf (x s)) := by
  rcases meets.cases kept with ⟨a, t, returned, holds⟩ | ⟨fault, t, failed, isExcused⟩
  · rw [returned]
    exact .ok holds
  · rw [failed]
    exact .error isExcused

theorem seeing {f : σ → EStateM Fault σ β}
    (second : ∀ seen, keeps seen → Meets keeps excused next (f seen)) :
    Meets keeps excused next (get >>= f) := fun s kept => second s kept s kept

end Meets

/-- The first step of a computation that cannot fail. -/
theorem bind_of_state {σ α β : Type} {x : StateM σ α} {f : α → StateM σ β} {s t : σ} {a : α}
    (first : x s = (a, t)) : (x >>= f) s = f a t := by
  change (fun result : α × σ => f result.1 result.2) (x s) = f a t
  rw [first]

end CallWeight
