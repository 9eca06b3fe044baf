import Euxis.Search
import Euxis.Cpg.Graph
import Euxis.Security.Finding

/-!
# The taint analyzer: `libs/taint/src/analyzer.cpp`

A search that could run forever takes fuel, and `none` says that it did not end. The descriptions of
the specs are left out: nothing reads them.
-/

namespace Euxis.Taint

open Cpg

/-! ## Specs -/

structure SourceSpec where
  id : Bytes
  languages : List Parse.Language
  pattern : Bytes

structure SinkSpec where
  id : Bytes
  languages : List Parse.Language
  pattern : Bytes
  cwe : Option Bytes
  owasp : Option Security.OwaspCategory
  severity : Security.Severity

structure SanitizerSpec where
  id : Bytes
  languages : List Parse.Language
  pattern : Bytes

structure TaintSpec where
  name : Bytes
  sources : List SourceSpec
  sinks : List SinkSpec
  sanitizers : List SanitizerSpec

def appliesTo (langs : List Parse.Language) (lang : Parse.Language) : Bool :=
  if langs = [] then true else lang ∈ langs

/-! ## Roles -/

inductive Role where
  | none
  | source
  | sink
  | sanitizer
  deriving DecidableEq, Repr

structure ClassificationEntry where
  role : Role := .none
  specIndex : Nat := 0
  deriving DecidableEq, Repr

structure AnalysisStats where
  sourcesMatched : Nat := 0
  sinksMatched : Nat := 0
  sanitizersMatched : Nat := 0
  flowsEmitted : Nat := 0
  bfsNodesVisited : Nat := 0
  deriving DecidableEq, Repr

/-- `matches`: a substring search that an empty pattern or text fails. -/
def textMatches (pattern text : Bytes) : Bool :=
  if pattern = [] ∨ text = [] then false else pattern <:+: text

/-- The role of one node. The first spec that matches wins, sanitizers before sinks before
sources. -/
def classify (spec : TaintSpec) (language : Parse.Language) (text : Bytes) : ClassificationEntry :=
  let hit (languages : List Parse.Language) (pattern : Bytes) : Bool :=
    appliesTo languages language && textMatches pattern text
  if text = [] then {}
  else
    match spec.sanitizers.findIdx? fun s => hit s.languages s.pattern with
    | some i => { role := .sanitizer, specIndex := i }
    | none =>
      match spec.sinks.findIdx? fun s => hit s.languages s.pattern with
      | some i => { role := .sink, specIndex := i }
      | none =>
        match spec.sources.findIdx? fun s => hit s.languages s.pattern with
        | some i => { role := .source, specIndex := i }
        | none => {}

def countRole (stats : AnalysisStats) : Role → AnalysisStats
  | .sanitizer => { stats with sanitizersMatched := stats.sanitizersMatched + 1 }
  | .sink => { stats with sinksMatched := stats.sinksMatched + 1 }
  | .source => { stats with sourcesMatched := stats.sourcesMatched + 1 }
  | .none => stats

/-- The table has one slot for each identifier, slot 0 included. -/
def classifyAll (g : Graph) (ast : Parse.Ast) (spec : TaintSpec) (stats : AnalysisStats) :
    List ClassificationEntry × AnalysisStats :=
  g.nodes.foldl (fun (roles, stats) node =>
    let entry := classify spec ast.language (ast.nodeText node.range)
    (roles.set node.id entry, countRole stats entry.role))
    (List.replicate (g.nodeCount + 1) {}, stats)

def entryOf (roles : List ClassificationEntry) (id : NodeId) : ClassificationEntry :=
  roles[id]?.getD {}

/-! ## The search -/

structure TaintFlow where
  sourceNode : NodeId
  sinkNode : NodeId
  path : List NodeId
  sourceSpecId : Bytes
  sinkSpecId : Bytes
  deriving DecidableEq, Repr

/-- A sink above the node ends the climb, and so does a sanitizer. -/
def ancestorTest (roles : List ClassificationEntry) (anc : NodeId) : Option NodeId :=
  if (entryOf roles anc).role = .sink then some anc
  else if (entryOf roles anc).role = .sanitizer then some kNullNode
  else none

/-- The sink that a reached node stands for, or the null node. -/
def sinkMatch (g : Graph) (roles : List ClassificationEntry) (source current : NodeId) :
    Option NodeId :=
  if current = source then some kNullNode
  else if (entryOf roles current).role = .sink then some current
  else (Search.climb g.up (ancestorTest roles) (g.nodeCount + 1) current).map (·.getD kNullNode)

def expand (path : List NodeId) (current : NodeId) (work : Search.Work (List NodeId) NodeId)
    (e : Edge) : Search.Work (List NodeId) NodeId :=
  if e.kind ≠ .ddg then work
  else if e.source ≠ current then work
  else if e.target ∈ work.visited then work
  else { frontier := work.frontier ++ [path ++ [e.target]], visited := e.target :: work.visited }

def makeFlow (roles : List ClassificationEntry) (spec : TaintSpec) (source : NodeId)
    (path : List NodeId) (sink : NodeId) : TaintFlow :=
  { sourceNode := source, sinkNode := sink,
    path := if path.getLastD kNullNode ≠ sink then path ++ [sink] else path,
    sourceSpecId := (spec.sources[(entryOf roles source).specIndex]?.map (·.id)).getD [],
    sinkSpecId := (spec.sinks[(entryOf roles sink).specIndex]?.map (·.id)).getD [] }

def bfsLoop (g : Graph) (roles : List ClassificationEntry) (spec : TaintSpec) (source : NodeId) :
    Nat → Search.Work (List NodeId) NodeId → List TaintFlow → AnalysisStats →
      Option (List TaintFlow × AnalysisStats)
  | 0, _, _, _ => none
  | fuel + 1, work, flows, stats =>
    match work.frontier with
    | [] => some (flows, stats)
    | path :: rest => do
      let current := path.getLastD kNullNode
      let stats := { stats with bfsNodesVisited := stats.bfsNodesVisited + 1 }
      let sink ← sinkMatch g roles source current
      if sink ≠ kNullNode then
        bfsLoop g roles spec source fuel { work with frontier := rest }
          (flows ++ [makeFlow roles spec source path sink])
          { stats with flowsEmitted := stats.flowsEmitted + 1 }
      else if current ≠ source ∧ (entryOf roles current).role = .sanitizer then
        bfsLoop g roles spec source fuel { work with frontier := rest } flows stats
      else
        bfsLoop g roles spec source fuel
          (g.edges.foldl (expand path current) { work with frontier := rest }) flows stats

def bfsFromSource (fuel : Nat) (g : Graph) (source : NodeId) (roles : List ClassificationEntry)
    (spec : TaintSpec) (flows : List TaintFlow) (stats : AnalysisStats) :
    Option (List TaintFlow × AnalysisStats) :=
  bfsLoop g roles spec source fuel { frontier := [[source]], visited := [source] } flows stats

structure AnalysisResult where
  flows : List TaintFlow := []
  stats : AnalysisStats := {}
  deriving DecidableEq, Repr

def analyze (fuel : Nat) (g : Graph) (ast : Parse.Ast) (spec : TaintSpec) : Option AnalysisResult :=
  if g.nodeCount = 0 then some {}
  else do
    let (roles, stats) := classifyAll g ast spec {}
    let (flows, stats) ← g.nodes.foldlM (fun (flows, stats) node =>
      if (entryOf roles node.id).role ≠ .source then some (flows, stats)
      else bfsFromSource fuel g node.id roles spec flows stats) ([], stats)
    return { flows, stats }

/-! ## Findings -/

def fnvOffset : UInt64 := 0xcbf29ce484222325

def fnvPrime : UInt64 := 0x100000001b3

def absorb (h : UInt64) (s : Bytes) : UInt64 := s.foldl (fun h b => (h ^^^ b.toUInt64) * fnvPrime) h

/-- The four bytes of a 32-bit number, the highest first. -/
def wordBytes (e : Nat) : Bytes := [24, 16, 8, 0].map fun shift => UInt8.ofNat (e >>> shift)

def hex64 (v : UInt64) : Bytes :=
  (List.range 16).map fun i => (ascii "0123456789abcdef").getD ((v.toNat >>> ((15 - i) * 4)) % 16) 0

def fingerprintHex (h : UInt64) : Bytes := hex64 h ++ hex64 (h ^^^ 0x5a5a5a5a5a5a5a5a)

def stableFingerprint (ruleId file sourceRawKind sinkRawKind : Bytes) (sinkLine : Nat) : Bytes :=
  let h := absorb (absorb (absorb (absorb fnvOffset ruleId) file) sourceRawKind) sinkRawKind
  fingerprintHex (absorb h (wordBytes sinkLine))

def locate (filePath : Bytes) (node : Node) : Security.SourceLocation :=
  { path := filePath,
    startLine := Security.oneBased node.range.startRow,
    startColumn := Security.oneBased node.range.startColumn,
    endLine := Security.oneBased node.range.endRow,
    endColumn := Security.oneBased node.range.endColumn }

def flowToFinding (g : Graph) (filePath : Bytes) (flow : TaintFlow) : Option Security.Finding := do
  let sinkNode ← g.get flow.sinkNode
  let sourceNode ← g.get flow.sourceNode
  let ruleId := ascii "euxis-taint/" ++ flow.sourceSpecId ++ ascii "->" ++ flow.sinkSpecId
  return {
    ruleId,
    message := ascii "Tainted data from " ++ flow.sourceSpecId ++ ascii " reaches " ++
      flow.sinkSpecId ++ ascii " without sanitisation.",
    severity := .high,
    confidence := .probable,
    source := .llmInferred,
    primaryLocation := locate filePath sinkNode,
    relatedLocations :=
      locate filePath sourceNode :: (flow.path.drop 1).dropLast.filterMap fun id =>
        (g.get id).map (locate filePath),
    -- The code hashes the start byte of the sink under the name `sink_line`.
    stableFingerprint :=
      stableFingerprint ruleId filePath sourceNode.rawKind sinkNode.rawKind sinkNode.range.startByte }

def flowsToFindings (result : AnalysisResult) (g : Graph) (filePath : Bytes) :
    List Security.Finding :=
  result.flows.filterMap (flowToFinding g filePath)

end Euxis.Taint
