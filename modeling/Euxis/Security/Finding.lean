import Euxis.Bytes

/-!
# Findings: `libs/security/include/euxis/security/finding.hpp`

The time at which a finding was produced is left out: nothing here reads it.
-/

namespace Euxis.Security

inductive Severity where
  | none
  | info
  | low
  | medium
  | high
  | critical
  deriving DecidableEq, Repr

inductive Confidence where
  | unknown
  | possible
  | probable
  | verified
  deriving DecidableEq, Repr

inductive RuleSource where
  | euxisCore
  | openGrep
  | userDefined
  | llmInferred
  | dependencyScanner
  | secretDetector
  | slopsquattingGuard
  deriving DecidableEq, Repr

inductive OwaspCategory where
  | none
  | a01BrokenAccessControl
  | a02CryptographicFailures
  | a03SupplyChainFailures
  | a04InsecureDesign
  | a05SecurityMisconfiguration
  | a06VulnerableComponents
  | a07AuthenticationFailures
  | a08DataIntegrityFailures
  | a09LoggingMonitoringFailures
  | a10MishandlingExceptionalConditions
  deriving DecidableEq, Repr

inductive QuantumDeprecation where
  | none
  | rsa
  | ecdsa
  | ecdh
  | dhFiniteField
  | sha1InSignature
  | md5InSignature
  | nonHybridKemMlKem
  | nonHybridSigMlDsa
  deriving DecidableEq, Repr

structure CweRef where
  id : Bytes
  shortName : Bytes := []
  inTop25 : Bool := false
  top25Rank : Int := 0
  deriving DecidableEq, Repr

/-- Lines and columns are 1-based. -/
structure SourceLocation where
  path : Bytes := []
  startLine : Int := 0
  startColumn : Int := 0
  endLine : Int := 0
  endColumn : Int := 0
  snippet : Bytes := []
  deriving DecidableEq, Repr

structure FixSuggestion where
  description : Bytes
  replacementText : Bytes
  replacementRange : SourceLocation
  deterministic : Bool
  deriving DecidableEq, Repr

/-- The confidence is a float, kept as its text. -/
structure EnsembleVote where
  provider : Bytes
  truePositive : Bool
  confidence : Bytes
  deriving DecidableEq, Repr

structure Finding where
  stableFingerprint : Bytes := []
  ruleId : Bytes := []
  message : Bytes := []
  severity : Severity := .medium
  confidence : Confidence := .probable
  source : RuleSource := .euxisCore
  primaryLocation : SourceLocation := {}
  relatedLocations : List SourceLocation := []
  cwe : Option CweRef := none
  owasp : OwaspCategory := .none
  quantum : QuantumDeprecation := .none
  complianceTaxa : List Bytes := []
  fixes : List FixSuggestion := []
  ensembleVotes : List EnsembleVote := []
  deriving DecidableEq, Repr

/-! ## Labels -/

def sarifLevel : Severity → Bytes
  | .critical | .high => ascii "error"
  | .medium => ascii "warning"
  | .low | .info => ascii "note"
  | .none => ascii "none"

def severityLabel : Severity → Bytes
  | .critical => ascii "CRITICAL"
  | .high => ascii "HIGH"
  | .medium => ascii "MEDIUM"
  | .low => ascii "LOW"
  | .info => ascii "INFO"
  | .none => ascii "NONE"

def quantumLabel : QuantumDeprecation → Bytes
  | .rsa => ascii "RSA (quantum-vulnerable; CNSA 2.0 deprecation 2030)"
  | .ecdsa => ascii "ECDSA (quantum-vulnerable; CNSA 2.0 deprecation 2030)"
  | .ecdh => ascii "ECDH (quantum-vulnerable; CNSA 2.0 deprecation 2030)"
  | .dhFiniteField => ascii "Finite-field DH (quantum-vulnerable; CNSA 2.0 deprecation 2030)"
  | .sha1InSignature => ascii "SHA-1 in signature context (collision-broken)"
  | .md5InSignature => ascii "MD5 in signature context (collision-broken)"
  | .nonHybridKemMlKem => ascii "ML-KEM used non-hybridised (transitional warning)"
  | .nonHybridSigMlDsa => ascii "ML-DSA used non-hybridised (transitional warning)"
  | .none => []

/-! ## Numbers of the enumerators -/

def Severity.code : Severity → Int
  | .none => 0
  | .info => 1
  | .low => 2
  | .medium => 3
  | .high => 4
  | .critical => 5

def Confidence.code : Confidence → Int
  | .unknown => 0
  | .possible => 1
  | .probable => 2
  | .verified => 3

def RuleSource.code : RuleSource → Int
  | .euxisCore => 0
  | .openGrep => 1
  | .userDefined => 2
  | .llmInferred => 3
  | .dependencyScanner => 4
  | .secretDetector => 5
  | .slopsquattingGuard => 6

def OwaspCategory.code : OwaspCategory → Int
  | .none => 0
  | .a01BrokenAccessControl => 1
  | .a02CryptographicFailures => 2
  | .a03SupplyChainFailures => 3
  | .a04InsecureDesign => 4
  | .a05SecurityMisconfiguration => 5
  | .a06VulnerableComponents => 6
  | .a07AuthenticationFailures => 7
  | .a08DataIntegrityFailures => 8
  | .a09LoggingMonitoringFailures => 9
  | .a10MishandlingExceptionalConditions => 10

/-! A stored number is cast to the `uint8_t` of the enumeration, and one that no enumerator has is
read as the one the labels treat it as. -/

def Severity.ofByte (i : Int) : Severity :=
  if i = 1 then .info else if i = 2 then .low else if i = 3 then .medium else if i = 4 then .high
  else if i = 5 then .critical else .none

def Severity.ofCode (i : Int) : Severity := .ofByte (i % 256)

def Confidence.ofByte (i : Int) : Confidence :=
  if i = 1 then .possible else if i = 2 then .probable else if i = 3 then .verified else .unknown

def Confidence.ofCode (i : Int) : Confidence := .ofByte (i % 256)

def OwaspCategory.ofByte (i : Int) : OwaspCategory :=
  if i = 1 then .a01BrokenAccessControl else if i = 2 then .a02CryptographicFailures
  else if i = 3 then .a03SupplyChainFailures else if i = 4 then .a04InsecureDesign
  else if i = 5 then .a05SecurityMisconfiguration else if i = 6 then .a06VulnerableComponents
  else if i = 7 then .a07AuthenticationFailures else if i = 8 then .a08DataIntegrityFailures
  else if i = 9 then .a09LoggingMonitoringFailures else if i = 10 then
    .a10MishandlingExceptionalConditions
  else .none

def OwaspCategory.ofCode (i : Int) : OwaspCategory := .ofByte (i % 256)

@[simp] theorem Severity.ofCode_code (s : Severity) : ofCode s.code = s := by cases s <;> rfl

@[simp] theorem Confidence.ofCode_code (c : Confidence) : ofCode c.code = c := by cases c <;> rfl

@[simp] theorem OwaspCategory.ofCode_code (c : OwaspCategory) :
    ofCode c.code = c := by cases c <;> rfl

/-- `static_cast<int>` of a 32-bit position that counts from 0, moved to count from 1. -/
def oneBased (n : Nat) : Int := Int.bmod (n + 1) (2 ^ 32)

end Euxis.Security
