import CallWeight.Proofs.PropagationSteps

/-! # What a propagated record is made of

At every moment the record of a resolved procedure is its local cost plus one weighted value for every
call that it has folded in so far, and the calls that it has not folded in yet wait in its frame. What
can be said about the values that were folded in is left open here: a ledger carries any property that
a value has when it is folded in.
-/

namespace CallWeight.Progress

variable {g : CallGraph} {program : Program}

/-- The calls that wait in the frame of a signature, none if it has no frame. -/
def pendingIn (signature : Text) : List (Frame g) → List (PendingCall g)
  | [] => []
  | frame :: rest =>
      if frame.procedure.signature = signature then frame.pending else pendingIn signature rest

theorem pendingIn_eq_nil {signature : Text} {stack : List (Frame g)}
    (absent : signature ∉ stack.map (·.procedure.signature)) : pendingIn signature stack = [] := by
  induction stack with
  | nil => rfl
  | cons frame rest ih =>
      simp only [List.map_cons, List.mem_cons, not_or] at absent
      rw [pendingIn, if_neg (Ne.symm absent.1)]
      exact ih absent.2

/-- The weighted sum of the values that were folded in with some calls. -/
def foldedSum (c : Counter) (folds : List (PendingCall g × Nat)) : Nat :=
  (folds.map fun fold => c.weight fold.1.depth * fold.2).sum

/-- The weighted sum of what some calls would fold in if every target were worth its value. -/
def callSum (c : Counter) (value : Procedure → Nat) (calls : List (PendingCall g)) : Nat :=
  (calls.map fun call => c.weight call.depth * value call.target).sum

section FoldedSum

variable {c : Counter} {value : Procedure → Nat} {folds : List (PendingCall g × Nat)}
  {pending calls : List (PendingCall g)}

theorem callSum_append (c : Counter) (value : Procedure → Nat) (done pending : List (PendingCall g)) :
    callSum c value (done ++ pending) = callSum c value done + callSum c value pending := by
  simp [callSum]

theorem callSum_le {value other : Procedure → Nat}
    (below : ∀ call ∈ calls, value call.target ≤ other call.target) :
    callSum c value calls ≤ callSum c other calls :=
  List.sum_le_sum fun call isCall => Nat.mul_le_mul_left _ (below call isCall)

theorem callSum_congr {value other : Procedure → Nat}
    (same : ∀ call ∈ calls, value call.target = other call.target) :
    callSum c value calls = callSum c other calls :=
  Nat.le_antisymm (callSum_le fun call isCall => Nat.le_of_eq (same call isCall))
    (callSum_le fun call isCall => Nat.le_of_eq (same call isCall).symm)

theorem foldedSum_le (all : folds.map (·.1) ++ pending = calls)
    (below : ∀ fold ∈ folds, fold.2 ≤ value fold.1.target) :
    foldedSum c folds ≤ callSum c value calls := by
  have done : foldedSum c folds ≤ callSum c value (folds.map (·.1)) := by
    simp only [foldedSum, callSum, List.map_map]
    exact List.sum_le_sum fun fold isFold => Nat.mul_le_mul_left _ (below fold isFold)
  rw [← all, callSum_append]
  exact Nat.le_trans done (Nat.le_add_right _ _)

theorem le_foldedSum (all : folds.map (·.1) = calls)
    (above : ∀ fold ∈ folds, value fold.1.target ≤ fold.2) :
    callSum c value calls ≤ foldedSum c folds := by
  rw [← all]
  simp only [foldedSum, callSum, List.map_map]
  exact List.sum_le_sum fun fold isFold => Nat.mul_le_mul_left _ (above fold isFold)

theorem foldedSum_eq (all : folds.map (·.1) = calls)
    (same : ∀ fold ∈ folds, fold.2 = value fold.1.target) :
    foldedSum c folds = callSum c value calls :=
  Nat.le_antisymm
    (foldedSum_le ((List.append_nil _).trans all) fun fold isFold => Nat.le_of_eq (same fold isFold))
    (le_foldedSum all fun fold isFold => Nat.le_of_eq (same fold isFold).symm)

end FoldedSum

/-- Whether the record of a procedure is accounted for, and every value folded into it has a
    property. -/
def Accounted (c : Counter) (Q : Procedure → PendingCall g → Nat → Prop) (s : Progress g)
    (p : Procedure) : Prop :=
  ∃ folds : List (PendingCall g × Nat),
    folds.map (·.1) ++ pendingIn p.signature s.stack = p.calls g ∧
      (∃ r, s.records p.signature = some r ∧ c.of r = (p.localCount c + foldedSum c folds : Nat)) ∧
      ∀ fold ∈ folds, Q p fold.1 fold.2

structure Ledger (program : Program) (c : Counter) (Q : Procedure → PendingCall g → Nat → Prop)
    (s : Progress g) : Prop where
  frames : ∀ frame ∈ s.stack, program.Knows frame.procedure ∧
    frame.procedure.signature ∈ s.resolved
  distinct : (s.stack.map (·.procedure.signature)).Nodup
  counts : ∀ {p}, program.Knows p → p.signature ∈ s.resolved → program.Counts p
  accounts : ∀ {p}, program.Knows p → p.signature ∈ s.resolved → s.Accounted c Q p

namespace Ledger

variable {c : Counter} {Q Q' : Procedure → PendingCall g → Nat → Prop} {s t : Progress g}

theorem none : Ledger program c Q (.none : Progress g) where
  frames := fun _ inStack => by cases inStack
  distinct := .nil
  counts := fun _ isResolved => by cases isResolved
  accounts := fun _ isResolved => by cases isResolved

theorem exists_record (ledger : Ledger program c Q s) {p : Procedure} (known : program.Knows p)
    (isResolved : p.signature ∈ s.resolved) : ∃ r, s.records p.signature = some r := by
  obtain ⟨folds, -, ⟨r, recorded, -⟩, -⟩ := ledger.accounts known isResolved
  exact ⟨r, recorded⟩

theorem mem_calls_of_frame (ledger : Ledger program c Q s) {p : Procedure}
    {pending : List (PendingCall g)} {rest : List (Frame g)}
    (onTop : s.stack = { procedure := p, pending } :: rest) {call : PendingCall g}
    (waits : call ∈ pending) : call ∈ p.calls g := by
  obtain ⟨known, isResolved⟩ := ledger.frames _ (onTop ▸ List.mem_cons_self)
  obtain ⟨folds, all, -⟩ := ledger.accounts known isResolved
  rw [onTop, pendingIn, if_pos rfl] at all
  exact all ▸ List.mem_append_right _ waits

theorem knows_target (ledger : Ledger program c Q s) (fits : g.Fits program) {p : Procedure}
    {call : PendingCall g} {pending : List (PendingCall g)} {rest : List (Frame g)}
    (onTop : s.stack = { procedure := p, pending := call :: pending } :: rest) :
    program.Knows call.target := by
  obtain ⟨position, -, e, leaves, -, target⟩ := Procedure.mem_calls
    (ledger.mem_calls_of_frame onTop List.mem_cons_self)
  rw [target]
  exact fits.knows e (fits.indexed.mem_edgesOutOf.mp leaves).1

theorem enter (ledger : Ledger program c Q s) {p : Procedure} (known : program.Knows p)
    (counts : program.Counts p) (isNew : p.signature ∉ s.resolved) :
    Ledger program c Q
      { s.write p.signature p.localRecord with
        resolved := p.signature :: s.resolved
        stack := { procedure := p, pending := p.calls g } :: s.stack } := by
  have absent : p.signature ∉ s.stack.map (·.procedure.signature) := by
    intro onStack
    obtain ⟨frame, inStack, same⟩ := List.mem_map.mp onStack
    exact isNew (same ▸ (ledger.frames frame inStack).2)
  refine ⟨fun frame inStack => ?_, List.nodup_cons.mpr ⟨absent, ledger.distinct⟩,
    fun {q} qKnown isResolved => ?_, fun {q} qKnown isResolved => ?_⟩
  · rcases List.mem_cons.mp inStack with rfl | inRest
    · exact ⟨known, List.mem_cons_self⟩
    · obtain ⟨frameKnown, isResolved⟩ := ledger.frames frame inRest
      exact ⟨frameKnown, List.mem_cons_of_mem _ isResolved⟩
  · rcases List.mem_cons.mp isResolved with same | old
    · exact known.eq qKnown same.symm ▸ counts
    · exact ledger.counts qKnown old
  · by_cases same : p.signature = q.signature
    · obtain rfl := known.eq qKnown same
      refine ⟨[], by simp [pendingIn], ⟨p.localRecord, by simp [write], ?_⟩, by simp⟩
      simp [foldedSum, c.of_localRecord p]
    · have old : q.signature ∈ s.resolved :=
        (List.mem_cons.mp isResolved).resolve_left (Ne.symm same)
      obtain ⟨folds, all, ⟨r, recorded, sum⟩, values⟩ := ledger.accounts qKnown old
      exact ⟨folds, by simpa [pendingIn, same] using all,
        ⟨r, by simpa [write, same] using recorded, sum⟩, values⟩

theorem foldValue (ledger : Ledger program c Q s) {p : Procedure} {call : PendingCall g}
    {pending : List (PendingCall g)} {rest : List (Frame g)} {own callee : CostRecord} {value : Nat}
    (onTop : s.stack = { procedure := p, pending := call :: pending } :: rest)
    (recorded : s.records p.signature = some own) (isValue : c.of callee = value)
    (weaken : ∀ {q other x}, Q q other x → Q' q other x) (folded : Q' p call value) :
    Ledger program c Q'
      { s.write p.signature (own.absorb callee call.depth) with
        stack := { procedure := p, pending } :: rest } := by
  obtain ⟨known, isResolved⟩ := ledger.frames _ (onTop ▸ List.mem_cons_self)
  refine ⟨fun frame inStack => ?_, ?_, ledger.counts, fun {q} qKnown qResolved => ?_⟩
  · rcases List.mem_cons.mp inStack with rfl | inRest
    · exact ⟨known, isResolved⟩
    · exact ledger.frames frame (onTop ▸ List.mem_cons_of_mem _ inRest)
  · simpa [onTop] using ledger.distinct
  · obtain ⟨folds, all, ⟨r, qRecorded, sum⟩, values⟩ := ledger.accounts qKnown qResolved
    by_cases same : p.signature = q.signature
    · obtain rfl := known.eq qKnown same
      cases recorded.symm.trans qRecorded
      -- The call moves from the head of the waiting calls to the end of the folded ones.
      refine ⟨folds ++ [(call, value)], ?_, ⟨own.absorb callee call.depth, by simp [write], ?_⟩, ?_⟩
      · simpa [onTop, pendingIn] using all
      · rw [c.of_absorb, isValue, sum]
        simp [foldedSum, Int.add_assoc]
      · intro fold isFold
        rcases List.mem_append.mp isFold with old | new
        · exact weaken (values fold old)
        · cases List.mem_singleton.mp new
          exact folded
    · exact ⟨folds, by simpa [onTop, pendingIn, same] using all,
        ⟨r, by simpa [write, same] using qRecorded, sum⟩,
        fun fold isFold => weaken (values fold isFold)⟩

/-- Folding in what a target offers: the record of an application procedure so far, or nothing. -/
theorem fold (ledger : Ledger program c Q s) (fits : g.Fits program) {p : Procedure}
    {call : PendingCall g} {pending : List (PendingCall g)} {rest : List (Frame g)}
    {own callee : CostRecord}
    (onTop : s.stack = { procedure := p, pending := call :: pending } :: rest)
    (recorded : s.records p.signature = some own)
    (offered : s.Offers program call.target callee)
    (weaken : ∀ {q other x}, Q q other x → Q' q other x)
    (application : ∀ value : Nat, call.target.signature ∈ s.resolved →
      s.records call.target.signature = some callee → c.of callee = value → Q' p call value)
    (library : ¬ program.Counts call.target → Q' p call 0) :
    Ledger program c Q'
      { s.write p.signature (own.absorb callee call.depth) with
        stack := { procedure := p, pending } :: rest } := by
  by_cases counts : program.Counts call.target
  · obtain ⟨isResolved, found⟩ := offered.application counts
    obtain ⟨folds, -, ⟨r, recordedTarget, sum⟩, -⟩ :=
      ledger.accounts (ledger.knows_target fits onTop) isResolved
    cases found.symm.trans recordedTarget
    exact ledger.foldValue onTop recorded sum weaken (application _ isResolved found sum)
  · obtain ⟨static, approx⟩ := offered.library counts
    have zero : c.of callee = (0 : Nat) := by cases c <;> assumption
    exact ledger.foldValue onTop recorded zero weaken (library counts)

theorem finish (ledger : Ledger program c Q s) {p : Procedure} {rest : List (Frame g)}
    (onTop : s.stack = { procedure := p, pending := [] } :: rest) :
    Ledger program c Q { s with stack := rest } := by
  have distinct := ledger.distinct
  rw [onTop, List.map_cons, List.nodup_cons] at distinct
  refine ⟨fun frame inRest => ledger.frames frame (onTop ▸ List.mem_cons_of_mem _ inRest),
    distinct.2, ledger.counts, fun {q} known isResolved => ?_⟩
  obtain ⟨folds, all, record, values⟩ := ledger.accounts known isResolved
  refine ⟨folds, ?_, record, values⟩
  rw [onTop, pendingIn] at all
  by_cases same : p.signature = q.signature
  · rw [if_pos same] at all
    rwa [pendingIn_eq_nil (same ▸ distinct.1)]
  · rwa [if_neg same] at all

end Ledger

end CallWeight.Progress
