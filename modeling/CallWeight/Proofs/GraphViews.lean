import CallWeight.CallGraph.Summary
import CallWeight.Proofs.Computation
import CallWeight.Proofs.GraphIndex
import CallWeight.Proofs.Lists
import CallWeight.Session.Step

/-! # One list of edges, seen from all sides

The procedures of a graph are listed in the order in which its edges first mention them, and so are the
call sites. `Catalogued` adds this to what `Indexed` says of the other views. It carries over from one
addition to the next, so it holds of whatever is built edge by edge, and the figures of a graph are then
numbers of edges and of call sites.
-/

namespace CallWeight

/-! ## Maps whose keys come in order -/

namespace OrderedMap

variable {α β : Type} [DecidableEq α]

/-- If the keys of a map are those of a list in the order of the list, then another key goes to the end
    of both. -/
theorem keys_insert_eq [BEq α] [LawfulBEq α] {m : OrderedMap α β} {items : List α}
    (listed : m.keys = items.eraseDups) (key : α) (value : β) :
    (m.insert key value).keys = (items ++ [key]).eraseDups := by
  rw [keys_insert, eraseDups_concat, listed]
  simp only [List.mem_eraseDups]

theorem keys_insertNew_eq [BEq α] [LawfulBEq α] {m : OrderedMap α β} {items : List α}
    (listed : m.keys = items.eraseDups) (key : α) (value : β) :
    (m.insertNew key value).keys = (items ++ [key]).eraseDups := by
  unfold insertNew
  split
  · rename_i old
    rw [← mem_keys_iff, listed, List.mem_eraseDups] at old
    rw [eraseDups_concat, if_pos old, listed]
  · exact keys_insert_eq listed key value

theorem lookupIn_of_mem {entries : List (α × β)} (distinct : (entries.map Prod.fst).Nodup) {key : α}
    {value : β} (listed : (key, value) ∈ entries) : lookupIn key entries = some value := by
  induction entries with
  | nil => cases listed
  | cons entry rest ih =>
      obtain ⟨k, v⟩ := entry
      rw [List.map_cons, List.nodup_cons] at distinct
      rcases List.mem_cons.mp listed with isFirst | inRest
      · cases isFirst
        simp [lookupIn]
      · have different : k ≠ key := by
          rintro rfl
          exact distinct.1 (List.mem_map.mpr ⟨(k, value), inRest, rfl⟩)
        rw [lookupIn, if_neg different]
        exact ih distinct.2 inRest

/-- The values of a map are what is found under its keys. -/
theorem values_eq_map {m : OrderedMap α β} (distinct : m.keys.Nodup) (default : β) :
    m.values = m.keys.map fun key => (m.get? key).getD default := by
  unfold values keys
  rw [List.map_map]
  refine List.map_congr_left fun entry listed => ?_
  have found : m.get? entry.1 = some entry.2 := lookupIn_of_mem distinct listed
  simp [found]

end OrderedMap

/-- The signatures at both ends of an edge, that of the caller first. -/
def CallEdge.ends (e : CallEdge) : List Text := [e.source.signature, e.target.signature]

namespace CallGraph

/-! ## The views -/

/-- All views of a graph agree with its list of edges, and the procedures and the call sites are in the
    order of their first edges. -/
structure Catalogued (g : CallGraph) : Prop extends Indexed g where
  arriving : ∀ signature, g.edgesInto signature = g.edges.filter (·.target.signature = signature)
  nodeOrder : g.nodes.keys = (g.edges.flatMap CallEdge.ends).eraseDups
  siteOrder : g.bySite.keys = (g.edges.map (·.site)).eraseDups
  distinctSites : g.bySite.keys.Nodup

theorem Catalogued.empty : Catalogued {} where
  toIndexed := .empty
  arriving _ := rfl
  nodeOrder := rfl
  siteOrder := rfl
  distinctSites := List.nodup_nil

theorem Catalogued.insertEdge {g : CallGraph} (catalogued : g.Catalogued) {e : CallEdge}
    (isNew : g.hasEdge e.site e.target.signature = false) : (g.insertEdge e).Catalogued where
  toIndexed := catalogued.toIndexed.insertEdge isNew
  arriving := file_eq_filter (·.target.signature) catalogued.arriving e
  nodeOrder := by
    have source := OrderedMap.keys_insertNew_eq catalogued.nodeOrder e.source.signature e.source
    have target := OrderedMap.keys_insertNew_eq source e.target.signature e.target
    simpa [CallGraph.insertEdge, CallEdge.ends] using target
  siteOrder := by
    have filed := OrderedMap.keys_insert_eq catalogued.siteOrder e.site (g.edgesOutOf e.site ++ [e])
    simpa [CallGraph.insertEdge, file, edgesOutOf] using filed
  distinctSites := OrderedMap.nodup_keys_insert catalogued.distinctSites _ _

theorem Catalogued.addEdge {g : CallGraph} (catalogued : g.Catalogued) (e : CallEdge) :
    (g.addEdge e).Catalogued := by
  unfold CallGraph.addEdge
  split
  · exact catalogued
  · rename_i isNew
    exact catalogued.insertEdge (by simpa using isNew)

/-- Every sequence of additions builds a graph whose views all agree. -/
theorem catalogued_ofEdges (added : List CallEdge) : (ofEdges added).Catalogued := by
  unfold ofEdges
  suffices everyStart : ∀ g : CallGraph, g.Catalogued →
      (added.foldl CallGraph.addEdge g).Catalogued from everyStart {} .empty
  induction added with
  | nil => exact fun g catalogued => catalogued
  | cons e rest ih => exact fun g catalogued => ih (g.addEdge e) (catalogued.addEdge e)

/-! ## Additions that are refused -/

theorem Indexed.hasEdge_iff {g : CallGraph} (indexed : g.Indexed) {site : Site} {signature : Text} :
    g.hasEdge site signature = true ↔
      ∃ f ∈ g.edges, f.site = site ∧ f.target.signature = signature := by
  simp [hasEdge, indexed.outOf]

theorem addEdge_of_refused {g : CallGraph} {e : CallEdge}
    (refused : g.hasEdge e.site e.target.signature = true) : g.addEdge e = g := by
  rw [addEdge, if_pos refused]

theorem edges_addEdge_of_new {g : CallGraph} {e : CallEdge}
    (isNew : g.hasEdge e.site e.target.signature = false) : (g.addEdge e).edges = g.edges ++ [e] := by
  rw [addEdge, if_neg (by simp [isNew])]
  rfl

/-! ## The figures -/

/-- Every edge has one of the kinds. -/
theorem sum_byKind (g : CallGraph) : (g.statistics.byKind.map (·.2)).sum = g.edges.length := by
  have counted (edges : List CallEdge) :
      (EdgeKind.all.map fun kind => (edges.filter (·.kind = kind)).length).sum = edges.length := by
    induction edges with
    | nil => rfl
    | cons e rest ih =>
        simp only [EdgeKind.all, List.map_cons, List.map_nil, List.sum_cons, List.sum_nil] at ih ⊢
        cases kind : e.kind <;> simp [kind] <;> omega
  simp only [statistics, List.map_map]
  exact counted g.edges

section Sites

variable {g : CallGraph} (catalogued : g.Catalogued)

include catalogued

theorem Catalogued.toFinset_sites : g.bySite.keys.toFinset = (g.edges.map (·.site)).toFinset := by
  ext site
  rw [List.mem_toFinset, List.mem_toFinset, catalogued.siteOrder, List.mem_eraseDups]

theorem Catalogued.callSites :
    g.statistics.callSites = (g.edges.map (·.site)).toFinset.card := by
  rw [← catalogued.toFinset_sites, List.toFinset_card_of_nodup catalogued.distinctSites]
  simp [statistics, OrderedMap.size, OrderedMap.keys]

theorem Catalogued.polymorphicCallSites :
    g.statistics.polymorphicCallSites = ((g.edges.map (·.site)).toFinset.filter fun site =>
      2 ≤ (g.edges.filter (·.site = site)).length).card := by
  have filed : g.bySite.values = g.bySite.keys.map fun site => g.edges.filter (·.site = site) := by
    rw [OrderedMap.values_eq_map catalogued.distinctSites []]
    exact List.map_congr_left fun site _ => catalogued.outOf site
  have several : g.bySite.keys.toFinset.filter (fun site =>
      2 ≤ (g.edges.filter (·.site = site)).length) =
      (g.bySite.keys.filter fun site => 2 ≤ (g.edges.filter (·.site = site)).length).toFinset := by
    ext site
    simp
  rw [← catalogued.toFinset_sites, several,
    List.toFinset_card_of_nodup (catalogued.distinctSites.filter _)]
  simp only [statistics, filed, List.filter_map, List.length_map]
  rfl

end Sites

end CallGraph

/-! ## The command that adds an edge -/

namespace SessionM

theorem graph_of_inspect {α : Type} {x : Inspecting α} {s after : Session} {a : α}
    (returned : inspect x s = .ok a after) : after.graph = s.graph := by
  unfold inspect at returned
  split at returned
  · cases returned
    rfl
  · cases returned

theorem graph_of_statement {place : Json} {s after : Session} {found : Procedure × Site × Statement}
    (returned : statement place s = .ok found after) : after.graph = s.graph := by
  obtain ⟨name, named, isName, looks⟩ := ok_of_bind returned
  obtain ⟨p, looked, isLooked, places⟩ := ok_of_bind looks
  obtain ⟨position, placed, isPosition, counts⟩ := ok_of_bind places
  have kept : placed.graph = s.graph := by
    rw [(ok_of_ofExcept isPosition).1, graph_of_inspect isLooked, (ok_of_ofExcept isName).1]
  cases hasBody : p.body with
  | none =>
      rw [hasBody] at counts
      cases counts
  | some body =>
      rw [hasBody] at counts
      obtain ⟨number, numbered, isNumber, finds⟩ := ok_of_bind counts
      rw [(ok_of_ofExcept isNumber).1] at finds
      cases isThere : (positionOf number body.length).bind fun n => body[n]?.map (n, ·) with
      | none =>
          rw [isThere] at finds
          cases finds
      | some found =>
          rw [isThere] at finds
          cases finds
          exact kept

end SessionM

namespace Session

/-- What the command that adds an edge replies tells what it has done to the graph. -/
theorem addEdge_cases {source place target kind : Json} {s after : Session} {reply : Reply}
    (returned : addEdge source place target kind s = .ok reply after) :
    (reply = .nothing ∧ after.graph = s.graph) ∨
      ∃ e, reply = .newEdge e ∧ after.graph = s.graph.addEdge e ∧
        s.graph.hasEdge e.site e.target.signature = false := by
  obtain ⟨edgeKind, begun, isKind, looks⟩ := ok_of_bind returned
  obtain ⟨caller, first, isCaller, places⟩ := ok_of_bind looks
  obtain ⟨⟨holder, site, called⟩, second, isPlaced, targets⟩ := ok_of_bind places
  obtain ⟨callee, third, isCallee, adds⟩ := ok_of_bind targets
  have kept : third.graph = s.graph := by
    rw [SessionM.graph_of_inspect isCallee, SessionM.graph_of_statement isPlaced,
      SessionM.graph_of_inspect isCaller, (ok_of_ofExcept isKind).1]
  have started : (get : SessionM Session) third = .ok third third := rfl
  rw [bind_of_ok started] at adds
  dsimp only at adds
  split at adds
  · cases adds
    exact .inl ⟨rfl, kept⟩
  · rename_i isNew
    cases adds
    have isNew : s.graph.hasEdge site callee.signature = false := by simpa [kept] using isNew
    refine .inr ⟨_, rfl, ?_, isNew⟩
    simp [CallGraph.addEdge, isNew, kept]

theorem step_addEdge {source place target kind : Json} {s after : Session} {reply : Reply}
    (stepped : step (.addEdge source place target kind) s = (.ok reply, after)) :
    addEdge source place target kind s = .ok reply after := by
  have same : execute (.addEdge source place target kind) = addEdge source place target kind := rfl
  unfold step at stepped
  rw [same] at stepped
  split at stepped <;> cases stepped
  assumption

end Session

namespace CallGraph

/-- A graph that is built edge by edge has no two edges of one call site to one target. Its edges by call
    site, by caller and by callee are the parts of its list of edges, its nodes are the ends of the edges
    in the order in which these mention them, and its figures are numbers of edges and of call sites. An
    addition that the graph refuses changes nothing, also if it is a command of a session; any other
    addition puts its edge behind the others. -/
theorem views_agree_after_additions (added : List CallEdge) :
    let g := ofEdges added
    (g.edges.Pairwise fun e f =>
      ¬ (e.site = f.site ∧ e.target.signature = f.target.signature)) ∧
    (∀ site, g.edgesOutOf site = g.edges.filter (·.site = site)) ∧
    (∀ p : Procedure,
      g.edgesFrom p.signature = g.edges.filter (·.source.signature = p.signature) ∧
      g.edgesInto p.signature = g.edges.filter (·.target.signature = p.signature)) ∧
    g.nodes.keys = (g.edges.flatMap CallEdge.ends).eraseDups ∧
    (∀ e : CallEdge,
      if ∃ f ∈ g.edges, f.site = e.site ∧ f.target.signature = e.target.signature
      then g.addEdge e = g
      else (g.addEdge e).edges = g.edges ++ [e]) ∧
    (∀ (s after : Session) (source place target kind : Json) (reply : Reply), s.graph = g →
      Session.step (.addEdge source place target kind) s = (.ok reply, after) →
      (reply = .nothing ∧ after.graph = g) ∨
        ∃ e, reply = .newEdge e ∧ after.graph = g.addEdge e ∧ after.graph.edges = g.edges ++ [e]) ∧
    (g.statistics.byKind.map (·.2)).sum = g.edges.length ∧
    g.statistics.callSites = (g.edges.map (·.site)).toFinset.card ∧
    g.statistics.polymorphicCallSites = ((g.edges.map (·.site)).toFinset.filter fun site =>
      2 ≤ (g.edges.filter (·.site = site)).length).card := by
  intro g
  have catalogued : g.Catalogued := catalogued_ofEdges added
  have indexed := catalogued.toIndexed
  refine ⟨?_, indexed.outOf, fun p => ⟨indexed.leaving _, catalogued.arriving _⟩,
    catalogued.nodeOrder, fun e => ?_, ?_, sum_byKind g, catalogued.callSites,
    catalogued.polymorphicCallSites⟩
  · exact indexed.simple.imp fun apart both => apart both.1 both.2
  · split
    · rename_i exist
      exact addEdge_of_refused (indexed.hasEdge_iff.mpr exist)
    · rename_i absent
      refine edges_addEdge_of_new ?_
      simpa using mt indexed.hasEdge_iff.mp absent
  · intro s after source place target kind reply isGraph stepped
    rcases Session.addEdge_cases (Session.step_addEdge stepped) with
      ⟨isNothing, kept⟩ | ⟨e, isReply, grown, isNew⟩
    · exact .inl ⟨isNothing, kept.trans isGraph⟩
    · rw [isGraph] at grown isNew
      exact .inr ⟨e, isReply, grown, grown ▸ edges_addEdge_of_new isNew⟩

end CallGraph

end CallWeight
