import CallWeight.Proofs.AugmentationIssues
import CallWeight.Proofs.DeclaredEdges
import CallWeight.Proofs.StoreKeys

/-! # What an analysis has at its end

The parts of an analysis put together: its edges are those that the program declares and, if the graph
is to be augmented, those that the procedures lack; its issues are those of the augmentation and those
of procedures without a body. Both can be read off the program, up to their order.
-/

namespace CallWeight

/-- The issues that an augmentation records, in some order. -/
def Program.augmentationIssues (program : Program) : List Issue :=
  if program.config.augmentCallGraph.truthy then
    program.applicationClasses.filterMap program.classIssue? ++
      program.applicationProcedures.flatMap program.unclearIssues
  else []

theorem Program.Alike.augmentationIssues {first second : Program} (alike : first.Alike second) :
    second.augmentationIssues = first.augmentationIssues := by
  have classIssue (c : ClassDecl) : second.classIssue? c = first.classIssue? c := by
    simp only [classIssue?, alike.threadEntry]
  have unclearIssues (p : Procedure) : second.unclearIssues p = first.unclearIssues p := by
    simp only [Program.unclearIssues, alike.siteIssues]
  simp only [Program.augmentationIssues, alike.config, alike.applicationClasses,
    alike.applicationProcedures, funext classIssue, funext unclearIssues]

namespace Analysis

theorem augment_eq (g : CallGraph) (i : Inspection) :
    augment DispatchRule.all g i =
      if i.program.config.augmentCallGraph.truthy then
        .ok ((Augmentation.ofGraph i g).graph, (Augmentation.ofGraph i g).added)
          (Augmentation.ofGraph i g).inspection
      else .ok (g, []) i := by
  have started : (get : Inspecting Inspection) i = .ok i i := rfl
  unfold augment
  rw [bind_of_ok started]
  split <;> rfl

namespace Stages

variable {i built warned augmented priced : Inspection} {a : Analysis} {g : CallGraph}
  (stages : Stages i a g built warned augmented priced)

include stages

theorem alike : i.Alike warned ∧ warned.issues = i.issues := by
  obtain ⟨alikeWarned, silent⟩ := quiet_warn built.program.config built
  rw [Inspecting.attempt_of_ok stages.warns] at alikeWarned silent
  exact ⟨(CallGraph.alike_of_build stages.builds).trans alikeWarned,
    silent.trans (CallGraph.issues_of_build stages.builds)⟩

theorem augment_cases :
    i.program.config.augmentCallGraph.truthy = true ∧
        a.graph = (Augmentation.ofGraph warned g).graph ∧
        augmented = (Augmentation.ofGraph warned g).inspection ∨
      i.program.config.augmentCallGraph.truthy = false ∧ a.graph = g ∧ augmented = warned := by
  have augments := stages.augments
  rw [augment_eq, stages.alike.1.program.config] at augments
  split at augments
  · rename_i wanted
    obtain ⟨graphs, isAugmented⟩ := EStateM.Result.ok.inj augments
    exact .inl ⟨wanted, (Prod.mk.inj graphs).1.symm, isAugmented.symm⟩
  · rename_i unwanted
    obtain ⟨graphs, isAugmented⟩ := EStateM.Result.ok.inj augments
    exact .inr ⟨by simpa using unwanted, (Prod.mk.inj graphs).1.symm, isAugmented.symm⟩

variable (noFailures : i.failures = []) (coherent : i.program.Coherent)

include coherent

theorem fits : g.Fits warned.program := by
  obtain ⟨grown, -⟩ := CallGraph.grown_of_build coherent stages.builds
  exact grown.fits.later ((harmless_warn _).later stages.warns).program

include noFailures

theorem reliable : warned.Reliable := by
  obtain ⟨grown, named⟩ := CallGraph.grown_of_build coherent stages.builds
  have later := grown.later.trans ((harmless_warn _).later stages.warns)
  exact .later ⟨noFailures, coherent, named⟩ later

/-- The edges of an analysis: those that were built and, if wanted, those that the walk gives to the
    application procedures, in whatever order. -/
theorem mem_edges_visited (e : CallEdge) :
    e ∈ a.graph.edges ↔ e ∈ g.edges ∨ i.program.config.augmentCallGraph.truthy = true ∧
      ∃ p ∈ i.program.applicationProcedures, e ∈ Augmentation.visitEdges DispatchRule.all
        (Augmentation.contextOf warned.program.config (Augmentation.fresh warned g)) g warned p := by
  have reliable := stages.reliable noFailures coherent
  have fits := stages.fits coherent
  rcases stages.augment_cases with ⟨wanted, isGraph, -⟩ | ⟨unwanted, isGraph, -⟩
  · have edges := Augmentation.edges_run DispatchRule.all warned.program.config reliable.coherent
      reliable.named fits
    have edges : a.graph.edges = g.edges ++ (Augmentation.ofGraph warned g).added :=
      isGraph ▸ edges
    rw [edges, List.mem_append, and_iff_right wanted,
      ← stages.alike.1.program.applicationProcedures]
    exact or_congr_right (Augmentation.mem_added_run DispatchRule.all warned.program.config
      reliable.coherent reliable.named fits e)
  · simp [unwanted, isGraph]

variable (sound : ∀ p ∈ i.program.applicationProcedures, SoundBody p.body)

include sound

/-- The edges of an analysis: those of the program and, if wanted, those that it lacks. -/
theorem mem_edges (e : CallEdge) :
    e ∈ a.graph.edges ↔ e ∈ g.edges ∨ i.program.config.augmentCallGraph.truthy = true ∧
      ∃ p ∈ i.program.applicationProcedures, i.program.Lacks g p e := by
  rw [stages.mem_edges_visited noFailures coherent]
  refine or_congr_right (and_congr_right fun _ => exists_congr fun p => and_congr_right fun listed => ?_)
  rw [Augmentation.mem_visitEdges_iff (sound p listed) (stages.reliable noFailures coherent)
    (stages.fits coherent).indexed, stages.alike.1.program.lacks]

/-- The issues after the augmentation, in some order. -/
theorem issues_augmented (distinct : (i.program.applicationProcedures.map (·.signature)).Nodup) :
    augmented.issues.Perm (i.issues ++ i.program.augmentationIssues) := by
  have alike := stages.alike.1.program
  rcases stages.augment_cases with ⟨wanted, -, rfl⟩ | ⟨unwanted, -, rfl⟩
  · rw [← alike.applicationProcedures] at sound distinct
    obtain ⟨unclear, issues, perm⟩ := Augmentation.issues_run_eq
      (stages.reliable noFailures coherent) (stages.fits coherent) sound distinct
    have wantedNow : warned.program.config.augmentCallGraph.truthy = true := by
      rw [alike.config, wanted]
    rw [issues, stages.alike.2, ← alike.augmentationIssues, Program.augmentationIssues,
      if_pos wantedNow, List.append_assoc]
    exact (perm.append_left _).append_left _
  · simp [Program.augmentationIssues, unwanted, stages.alike.2]

end Stages

end Analysis

end CallWeight
