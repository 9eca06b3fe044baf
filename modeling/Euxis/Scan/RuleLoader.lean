import Euxis.Config.Yaml
import Euxis.Scan.Engine

/-!
# Rule packs: `libs/scan/src/rule_loader.cpp` and `libs/scan/src/rule.cpp`

The warning about metavariable keys is left out: it does not change the pattern.
-/

namespace Euxis.Scan

open Config

/-! ## Tokens -/

def parseSeverity (s : Bytes) : Option RuleSeverity :=
  let lower := Bytes.lower s
  if lower = ascii "info" ∨ lower = ascii "informational" then some .info
  else if lower = ascii "warning" ∨ lower = ascii "warn" then some .warning
  else if lower = ascii "error" ∨ lower = ascii "critical" then some .error
  else none

def parseLanguageToken (s : Bytes) : Option Parse.Language :=
  let lower := Bytes.lower s
  if lower = ascii "c" then some .c
  else if lower = ascii "cpp" ∨ lower = ascii "c++" ∨ lower = ascii "cxx" then some .cpp
  else if lower = ascii "rust" ∨ lower = ascii "rs" then some .rust
  else if lower = ascii "go" ∨ lower = ascii "golang" then some .go
  else if lower = ascii "python" ∨ lower = ascii "py" then some .python
  else if lower = ascii "javascript" ∨ lower = ascii "js" then some .javaScript
  else if lower = ascii "typescript" ∨ lower = ascii "ts" then some .typeScript
  else if lower = ascii "java" then some .java
  else none

def kOwaspTokens : List (Bytes × Security.OwaspCategory) :=
  [(ascii "a01", .a01BrokenAccessControl), (ascii "a02", .a02CryptographicFailures),
   (ascii "a03", .a03SupplyChainFailures), (ascii "a04", .a04InsecureDesign),
   (ascii "a05", .a05SecurityMisconfiguration), (ascii "a06", .a06VulnerableComponents),
   (ascii "a07", .a07AuthenticationFailures), (ascii "a08", .a08DataIntegrityFailures),
   (ascii "a09", .a09LoggingMonitoringFailures),
   (ascii "a10", .a10MishandlingExceptionalConditions)]

/-- The year after the category is optional. -/
def parseOwaspToken (s : Bytes) : Option Security.OwaspCategory :=
  let stripped := s.takeWhile fun c => c ≠ ch ':' ∧ c ≠ ch '-' ∧ c ≠ ch '_' ∧ c ≠ ch ' '
  kOwaspTokens.lookup (Bytes.lower stripped)

/-! ## Patterns -/

theorem sizeOf_get {node child : Yaml} {key : Bytes} (h : Yaml.get (some node) key = some child) :
    sizeOf child < sizeOf node := by
  cases node with
  | map members =>
    obtain ⟨⟨k, v⟩, hfind, rfl⟩ := Option.map_eq_some_iff.mp h
    have hmem := List.sizeOf_lt_of_mem (List.mem_of_find?_eq_some hfind)
    simp only [Prod.mk.sizeOf_spec, Yaml.map.sizeOf_spec] at hmem ⊢
    omega
  | _ => cases h

/-- The items of a member that is a sequence. -/
def itemsUnder (node : Yaml) (key : Bytes) : Option (List Yaml) :=
  match Yaml.get (some node) key with
  | some (.seq items) => some items
  | _ => none

theorem itemsUnder_eq_some_iff {node : Yaml} {key : Bytes} {items : List Yaml} :
    itemsUnder node key = some items ↔ Yaml.get (some node) key = some (.seq items) := by
  unfold itemsUnder
  split
  · rename_i found hget
    simp [hget]
  · rename_i hseq
    simp only [reduceCtorEq, false_iff]
    exact hseq items

theorem sizeOf_itemsUnder {node : Yaml} {key : Bytes} {items : List Yaml}
    (h : itemsUnder node key = some items) : sizeOf items < sizeOf node := by
  have hlt := sizeOf_get (itemsUnder_eq_some_iff.mp h)
  rw [Yaml.seq.sizeOf_spec] at hlt
  omega

/-- The child comes built. -/
def wrapUnary (kind : PatternKind) (child : Pattern) : Pattern := { kind, children := [child] }

/-- A value that does not convert leaves the text empty. -/
def literalPattern (node : Yaml) : Pattern :=
  match Yaml.get (some node) (ascii "pattern") with
  | some child => { kind := .literal, text := child.asString.getD [] }
  | none => {}

mutual

def buildPatternList : List Yaml → List Pattern
  | [] => []
  | entry :: rest => buildPatternFromNode entry :: buildPatternList rest
termination_by items => sizeOf items

/-- `pattern-not` and `pattern-inside` come before the lists. -/
def buildPatternFromNode : Yaml → Pattern
  | .scalar text => { kind := .literal, text }
  | .map members =>
    match _h : Yaml.get (some (.map members)) (ascii "pattern-not") with
    | some child => wrapUnary .negation (buildPatternFromNode child)
    | none =>
      match _h : Yaml.get (some (.map members)) (ascii "pattern-inside") with
      | some child => wrapUnary .inside (buildPatternFromNode child)
      | none =>
        match _h : itemsUnder (.map members) (ascii "pattern-either") with
        | some items => { kind := .alternation, children := buildPatternList items }
        | none =>
          match _h : itemsUnder (.map members) (ascii "patterns") with
          | some items => { kind := .composite, children := buildPatternList items }
          | none => literalPattern (.map members)
  | _ => {}
termination_by node => sizeOf node
decreasing_by
  · exact sizeOf_get _h
  · exact sizeOf_get _h
  · exact sizeOf_itemsUnder _h
  · exact sizeOf_itemsUnder _h

end

/-- Here the lists come first. -/
def buildRulePattern : Yaml → Pattern
  | .map members =>
    match itemsUnder (.map members) (ascii "pattern-either") with
    | some items => { kind := .alternation, children := buildPatternList items }
    | none =>
      match itemsUnder (.map members) (ascii "patterns") with
      | some items => { kind := .composite, children := buildPatternList items }
      | none =>
        match Yaml.get (some (.map members)) (ascii "pattern-not") with
        | some child => wrapUnary .negation (buildPatternFromNode child)
        | none =>
          match Yaml.get (some (.map members)) (ascii "pattern-inside") with
          | some child => wrapUnary .inside (buildPatternFromNode child)
          | none => literalPattern (.map members)
  | _ => {}

/-! ## Rules -/

def scalarOrEmpty (node : Option Yaml) (key : Bytes) : Bytes :=
  ((Yaml.get node key).bind Yaml.asString).getD []

/-- The scalar, or the first item of the list, under a key of the metadata. -/
def firstUnder (metadata : Option Yaml) (key : Bytes) : Option Bytes :=
  match Yaml.get metadata key with
  | some (.scalar text) => some text
  | some (.seq (item :: _)) => item.asString
  | _ => none

def extractFirstCwe (metadata : Option Yaml) : Option Bytes := firstUnder metadata (ascii "cwe")

def extractFirstOwasp (metadata : Option Yaml) : Option Security.OwaspCategory :=
  (firstUnder metadata (ascii "owasp")).bind parseOwaspToken

def scalarText : Yaml → Option Bytes
  | .scalar text => some text
  | _ => none

def extractReferences (metadata : Option Yaml) : List Bytes :=
  match Yaml.get metadata (ascii "references") with
  | some (.scalar text) => [text]
  | some (.seq items) => items.filterMap scalarText
  | _ => []

/-- A name that is no known language is dropped. -/
def extractLanguages (ruleNode : Yaml) : List Parse.Language :=
  match itemsUnder ruleNode (ascii "languages") with
  | some items => (items.filterMap scalarText).filterMap parseLanguageToken
  | none => []

def buildRule (ruleNode : Yaml) : Except Bytes Rule :=
  if ¬ ruleNode.isMap then .error (ascii "rule entry is not a YAML map")
  else
    let id := scalarOrEmpty (some ruleNode) (ascii "id")
    let message := scalarOrEmpty (some ruleNode) (ascii "message")
    if id = [] then .error (ascii "rule missing required `id`")
    else if message = [] then .error (ascii "rule '" ++ id ++ ascii "' missing required `message`")
    else
      let metadata := Yaml.get (some ruleNode) (ascii "metadata")
      .ok {
        id, message
        severity := (parseSeverity (scalarOrEmpty (some ruleNode) (ascii "severity"))).getD .warning
        languages := extractLanguages ruleNode
        pattern := buildRulePattern ruleNode
        metadata := {
          primaryCwe := extractFirstCwe metadata
          primaryOwasp := extractFirstOwasp metadata
          references := extractReferences metadata } }

/-! ## Packs -/

structure LoadError where
  message : Bytes
  file : Bytes := []
  line : Nat := 0
  deriving DecidableEq, Repr

/-- The first entry that is no rule ends the loop. -/
def buildRules : Nat → List Yaml → Except LoadError (List Rule)
  | _, [] => .ok []
  | idx, entry :: rest =>
    match buildRule entry with
    | .error what =>
      .error { message := ascii "rules[" ++ Bytes.decimal idx ++ ascii "]: " ++ what }
    | .ok rule => (buildRules (idx + 1) rest).map (rule :: ·)

def loadRulesYaml (lib : YamlLib) (yaml name : Bytes) : Except LoadError RulePack :=
  match lib.load yaml with
  | .error (what, line) =>
    .error { message := ascii "YAML parse error: " ++ what, line := line + 1 }
  | .ok root =>
    if ¬ root.isMap then .error { message := ascii "rule pack root is not a YAML mapping" }
    else
      match itemsUnder root (ascii "rules") with
      | some entries => (buildRules 0 entries).map fun rules => { name, rules }
      | none => .error { message := ascii "rule pack missing top-level `rules:` sequence" }

def loadRulesFile (lib : YamlLib) (readFile : Bytes → Option Bytes) (path : Bytes) :
    Except LoadError RulePack :=
  match readFile path with
  | none => .error { message := ascii "cannot open rule file", file := path }
  | some text =>
    (loadRulesYaml lib text (Parse.filename path)).mapError fun err => { err with file := path }

end Euxis.Scan
