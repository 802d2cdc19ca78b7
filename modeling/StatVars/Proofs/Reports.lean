import StatVars.Proofs.Calls
import StatVars.Proofs.Composition
import StatVars.Report

/-!
# Reports are the plain pipeline

A report is made by a session with a host of its own. The document is bound to the first node, the
text is generated at the second one, and the variables are read back from the response. Nothing of
this shows in the report: no call fails, the text is run against the variables of the document, and
a text without commands leaves them as they are. Main statement: `Report.ofText_eq_direct`.
-/

namespace StatVars

/-- A node without a snapshot shows the one of its parent, if the limit admits one step. -/
theorem Memory.seenAt_of_parent {c : Config} {m : Memory} {scope : Scope} {node parent : Node}
    {bundle : Bundle} (hnode : m.boundAt? scope node = none)
    (hparent : m.parent? scope node = .ok (some parent))
    (hbound : m.boundAt? scope parent = some bundle) (hwalk : 1 ≤ c.maxAncestorWalk) :
    m.seenAt c scope (some node) = .ok bundle := by
  rw [seenAt, Host.nearest?, climb_succ, hnode]
  simp only [hparent]
  rw [climb_of_bound hbound hwalk]
  rfl

namespace Session

variable {c : Config} {scope : Scope} {node parent : Node} {s : Session Memory} {bundle : Bundle}

/-- A commit at the active node stands if its variables can be read afterwards. -/
theorem commit_of_active (hactive : s.host.activeNode? scope = some node) {written : Option Bundle}
    (hseen : (s.host.rebound scope node written).seenAt c scope (some node) = .ok bundle) :
    commit c scope node written s =
      (.ok (), looked { s with host := s.host.rebound scope node written } scope bundle) := by
  rw [commit_apply]
  simp only [Memory.activeNode?_rebound, hactive, hseen]

theorem seenAt_rebound_some (m : Memory) (c : Config) (scope : Scope) (node : Node)
    (bundle : Bundle) :
    (m.rebound scope node (some bundle)).seenAt c scope (some node) = .ok bundle :=
  Memory.seenAt_of_bound ((m.boundAt?_rebound ..).trans (if_pos rfl)) c

/-- Where the parent of the active node has a snapshot, whatever a text does to it can be read back
afterwards. -/
theorem respond_of_active (hactive : s.host.activeNode? scope = some node)
    (hparent : s.host.parent? scope node = .ok (some parent)) (hne : parent ≠ node)
    (hbound : s.host.boundAt? scope parent = some bundle) (hwalk : 1 ≤ c.maxAncestorWalk)
    (text : String) :
    (respond c scope node text s).1 = .ok (generated c bundle text).2 := by
  have hbase : baseAt c s.host scope node = .ok bundle := by
    simp only [baseAt, hparent]
    exact Memory.seenAt_of_bound hbound c
  have hseen : ((s.host.rebound scope node (generated c bundle text).1).seenAt c scope
      (some node)) = .ok (generated c bundle text).2.bundle := by
    rw [← generated_bundle]
    cases (generated c bundle text).1 with
    | some written => exact seenAt_rebound_some ..
    | none =>
      refine Memory.seenAt_of_parent ?_ hparent ?_ hwalk
      · exact (s.host.boundAt?_rebound ..).trans (if_pos rfl)
      · rw [s.host.boundAt?_rebound, if_neg fun he => hne (congrArg Prod.snd he).symm, hbound]
        rfl
  simp only [respond_apply, hbase, commit_of_active hactive hseen]
  rfl

end Session

namespace Report

open Session Fallible

/-- What a text does to a document, without a session: the commands of its statements are run on the
variables of the document, and what was passed over is reported in the order of the text. -/
def direct (c : Config) (document : Json) (text : String) : Report :=
  let found := Extraction.ofText c.extraction text
  let (commands, dropped) := Command.ofStatements found.statements
  let (after, results) := (Bundle.ofDocument c.extensibleByDefault document).apply c commands
  { data := after.data
    delta := Command.Result.delta results
    results := results
    diagnostics := (dropped ++ found.diagnostics).mergeSort fun d e => d.span.start ≤ e.span.start }

/-- The response to a text on the variables of a document, whether or not it has commands. -/
theorem ofResponse_generated (c : Config) (document : Json) (text : String) :
    ofResponse (generated c (Bundle.ofDocument c.extensibleByDefault document) text).2 =
      direct c document text := by
  rw [generated]
  split
  · next hempty =>
    -- No command is run, and the variables are those of the document.
    have hcommands : (Command.ofStatements (Extraction.ofText c.extraction text).statements).1 =
        [] := List.isEmpty_iff.1 hempty
    simp only [direct, hcommands]
    rfl
  · rfl

/-- No call of the session fails: the document is at the first node when the text is run. -/
theorem session_ok (c : Config) (hwalk : 1 ≤ c.maxAncestorWalk) (document : Json)
    (text : String) :
    (session c document text ⟨{}, []⟩).1 =
      .ok (generated c (Bundle.ofDocument c.extensibleByDefault document) text).2 := by
  let scope : Scope := ⟨"report"⟩
  let root : Node := ⟨"initial"⟩
  let reply : Node := ⟨"response"⟩
  let bundle := Bundle.ofDocument c.extensibleByDefault document
  let opened : Session Memory := ⟨Memory.push {} scope root none, []⟩
  let started := looked
    { opened with host := opened.host.rebound scope root (some bundle) } scope bundle
  let replied : Session Memory := { started with host := started.host.push scope reply (some root) }
  have hcommit : commit c scope root (some bundle) opened = (.ok (), started) :=
    commit_of_active rfl (seenAt_rebound_some ..)
  have hstart : discard (start c scope root document) opened = (.ok (), started) := by
    have hdiscard : (discard (start c scope root document) : Action Memory Unit) =
        (fun _ => ()) <$> start c scope root document := rfl
    rw [hdiscard, map_apply, start, bind_pure_apply, hcommit]
    rfl
  have hsession : session c document text ⟨{}, []⟩ = respond c scope reply text replied := by
    simp only [session, bind_apply, modify_apply]
    rw [hstart]
  have hparent : replied.host.parent? scope reply = .ok (some root) := rfl
  rw [hsession]
  exact respond_of_active rfl hparent (by decide) rfl hwalk text

/-- **The report is that of the plain pipeline.** If a walk may go one step, a report is made of
every document and every text. Its variables, its changes and its results are those of the commands
of the text on the variables of the document, and its diagnostics are those of reading the text and
of making commands of its statements, in the order of the text. -/
theorem ofText_eq_direct (c : Config) (hwalk : 1 ≤ c.maxAncestorWalk) (document : Json)
    (text : String) :
    let found := Extraction.ofText c.extraction text
    let dropped := (Command.ofStatements found.statements).2
    ofText c document text = .ok (direct c document text) ∧
      (direct c document text).diagnostics.Perm (dropped ++ found.diagnostics) ∧
      (direct c document text).diagnostics.Pairwise fun d e => d.span.start ≤ e.span.start := by
  intro found dropped
  refine ⟨?_, List.mergeSort_perm .., ?_⟩
  · rw [ofText, session_ok c hwalk, Except.map, ofResponse_generated]
  · exact pairwise_mergeSort_place (fun d : Diagnostic => d.span.start) _

/-- A statement that lacks an argument is reported, and the variables are those of the document. -/
theorem ofText_eq_direct_no_commands :
    let document : Json := .obj [("hp", .ofNat 10), ("$meta", .obj [("extensible", .bool false)])]
    ∃ report, ofText {} document "He rests. _.set('hp');" = .ok report ∧
      report.data = .obj [("hp", .ofNat 10)] ∧ report.delta = [] ∧ report.results.length = 0 ∧
      report.diagnostics.map (·.span) = [⟨10, 22⟩] := by
  intro document
  obtain ⟨hreport, -, -⟩ :=
    ofText_eq_direct {} (by decide) document "He rests. _.set('hp');"
  refine ⟨_, hreport, ?_, ?_, ?_, ?_⟩
  all_goals decide +kernel

end Report

end StatVars
