/-! # What the release says about itself -/

namespace CallWeight.Release

def package : String := "hotproc"

def version : String := "0.3.0"

/-- The parts of the release, each with the names that it exports. -/
def parts : List (String × List String) := [
  ("errors", ["HotprocError", "UnresolvableBody", "ClassificationFailure", "ExtractionFailure",
    "ProgramFormatError", "ConfigError", "IssueKind", "IssueLog"]),
  ("config", ["AnalysisConfig", "load_config"]),
  ("loops", ["Loop", "LoopNestTree", "loop_nest_depths", "natural_loops"]),
  ("model", ["Statement", "StatementKind", "Procedure", "ClassInfo", "ProgramModel",
    "InMemoryProgram", "load_program", "program_from_dict"]),
  ("features", ["Features", "LocalFeatureExtractor", "WEIGHT_BASE"]),
  ("store", ["FeatureStore"]),
  ("callgraph", ["CallGraph", "CallEdge", "EdgeKind", "build_callgraph"]),
  ("augment", ["CallGraphAugmenter", "DispatchPattern", "ThreadStartPattern",
    "ExecutorSubmitPattern", "UnresolvedCallFallback"]),
  ("propagation", ["PropagationEngine"]),
  ("analyzer", ["StaticAnalyzer", "AnalysisResult", "analyze"])]

/-- The names of the parts, sorted. -/
def partNames : List String := (parts.map (·.1)).mergeSort (· ≤ ·)

/-- All exported names: those of each part, then the part itself, then those of the whole. -/
def exports : List String :=
  parts.flatMap (fun (part, names) => names ++ [part])
    ++ ["list_submodules", "package_info", "__version__"]

/-- The answer to the question for the version. -/
def versionLine : String := s!"{package} {version}"

end CallWeight.Release
