import Euxis.Gateway.Code
import Euxis.Json.Access
import Mathlib.Data.List.Forall2
import Mathlib.Data.List.Nodup

/-!
# The agent registry: `apps/cli/src/registry_client.cpp`

Agents are kept in an SQLite database and in a JSON file. Each query has one implementation for each
of the two, and the database comes first.
-/

namespace Euxis.Cli

open Gateway (appendPath)
open Json (hasType isString)

/-! ## The client -/

/-- No query sets a manifesto. -/
structure AgentInfo where
  id : Bytes := []
  role : Bytes := []
  version : Bytes := []
  tier : Bytes := []
  tags : List Bytes := []
  capabilities : List Bytes := []
  promptPath : Bytes := []
  deriving DecidableEq, Repr

/-- A row of the table `agents`. -/
structure AgentRow where
  id : Bytes
  role : Option Bytes
  version : Option Bytes
  tier : Option Bytes
  path : Option Bytes
  deriving DecidableEq, Repr

/-- The tables `tags` and `agent_tags`. -/
structure TagTables where
  tags : List (Int × Bytes)
  agentTags : List (Bytes × Int)
  deriving DecidableEq, Repr

/-- The tables that a statement can be prepared for. -/
structure Database where
  agents : Option (List AgentRow)
  tagTables : Option TagTables
  deriving DecidableEq, Repr

structure RegistryClient where
  dataDir : Bytes
  db : Option Database
  registryJson : Json
  fileExists : Bytes → Bool

/-- A text as a C string. -/
def cstr (s : Bytes) : Bytes := s.takeWhile (· ≠ 0)

/-- The columns of a row, read as C strings. A null leaves the field empty. -/
def rowInfo (row : AgentRow) : AgentInfo :=
  { id := cstr row.id
    role := (row.role.map cstr).getD []
    version := (row.version.map cstr).getD []
    tier := (row.tier.map cstr).getD []
    promptPath := (row.path.map cstr).getD [] }

/-- `j.value(first, j.value(second, ""))`. -/
def valueNested (j : Json) (first second : Bytes) : Except JsonError Bytes :=
  j.valueStr second [] >>= j.valueStr first

/-- The strings of an array, or none where the member is no array. -/
def stringsAt (j : Json) (key : Bytes) : Except JsonError (List Bytes) :=
  match j.find key with
  | some (.arr items) => items.mapM Json.getStr
  | _ => .ok []

def parseAgent (j : Json) : Except JsonError AgentInfo := do
  let id ← valueNested j (ascii "agent_id") (ascii "id")
  let role ← j.valueStr (ascii "role") []
  let version ← j.valueStr (ascii "version") []
  let tier ← j.valueStr (ascii "tier") (ascii "code")
  let tags ← stringsAt j (ascii "tags")
  let capabilities ← stringsAt j (ascii "capabilities")
  let promptPath ← valueNested j (ascii "prompt_path") (ascii "path")
  return { id, role, version, tier, tags, capabilities, promptPath }

namespace RegistryClient

variable (client : RegistryClient)

def promptPrefixes : List Bytes := [[], ascii "data/agents/", ascii "agents/"]

def resolvePath (path : Bytes) : Bytes :=
  if path = [] then path
  else if path.head? = some (ch '/') then path
  else
    match promptPrefixes.find? fun folder =>
      client.fileExists (appendPath (appendPath client.dataDir folder) path) with
    | some folder => appendPath folder path
    | none => path

def resolvePromptPath (a : AgentInfo) : AgentInfo :=
  { a with promptPath := client.resolvePath a.promptPath }

/-- The elements of the array of agents. -/
def agentValues : List Json :=
  match client.registryJson.find (ascii "agents") with
  | some (.arr values) => values
  | _ => []

def listAgentsJson : Except JsonError (List AgentInfo) := client.agentValues.mapM parseAgent

def listAgents : Except JsonError (List AgentInfo) :=
  match client.db.bind (·.agents) with
  | some rows =>
    .ok ((rows.mergeSort fun a b => a.id ≤ b.id).map fun row =>
      client.resolvePromptPath (rowInfo row))
  | none => client.listAgentsJson.map fun agents => agents.map client.resolvePromptPath

/-- The loop over the array, up to the first value with the id. -/
def searchJson (agentId : Bytes) : List Json → Except JsonError (Option AgentInfo)
  | [] => .ok none
  | j :: rest =>
    valueNested j (ascii "agent_id") (ascii "id") >>= fun id =>
      if id = agentId then (parseAgent j).map fun a => some (client.resolvePromptPath a)
      else searchJson agentId rest

def getAgent (agentId : Bytes) : Except JsonError (Option AgentInfo) :=
  match (client.db.bind (·.agents)).bind fun rows => rows.find? (·.id = cstr agentId) with
  | some row => .ok (some (client.resolvePromptPath (rowInfo row)))
  | none => client.searchJson agentId client.agentValues

/-- The rows of the join, each as often as it matches. -/
def taggedRows (rows : List AgentRow) (tables : TagTables) (tag : Bytes) : List AgentRow :=
  rows.flatMap fun a => tables.agentTags.flatMap fun link =>
    if a.id = link.1 then (tables.tags.filter fun t => link.2 = t.1 ∧ t.2 = cstr tag).map fun _ => a
    else []

def findByTag (tag : Bytes) : Except JsonError (List AgentInfo) :=
  match client.db.bind (·.agents), client.db.bind (·.tagTables) with
  | some rows, some tables => .ok ((taggedRows rows tables tag).map rowInfo)
  | _, _ => client.listAgentsJson.map fun agents => agents.filter fun a => tag ∈ a.tags

def findByCapability (cap : Bytes) : Except JsonError (List AgentInfo) :=
  client.listAgents.map fun agents => agents.filter fun a => cap ∈ a.capabilities

/-- The same client without the database. -/
def withoutDb : RegistryClient := { client with db := none }

end RegistryClient

/-! ## The same agents in both -/

/-- What is known of an agent. -/
structure AgentRecord where
  id : Bytes
  role : Option Bytes := none
  version : Option Bytes := none
  tier : Option Bytes := none
  path : Option Bytes := none
  tags : List Bytes := []
  capabilities : List Bytes := []
  deriving DecidableEq, Repr

/-- The row of an agent. No table holds capabilities. -/
def AgentRecord.row (a : AgentRecord) : AgentRow :=
  { id := a.id, role := a.role, version := a.version, tier := a.tier, path := a.path }

/-- The agent as the JSON file gives it. -/
def AgentRecord.info (a : AgentRecord) : AgentInfo :=
  { id := a.id
    role := a.role.getD []
    version := a.version.getD []
    tier := a.tier.getD (ascii "code")
    tags := a.tags
    capabilities := a.capabilities
    promptPath := a.path.getD [] }

/-- The first of the two members that is there. -/
structure NestedMember (j : Json) (first second : Bytes) (v : Option Bytes) : Prop where
  first_typed : hasType isString j first = true
  second_typed : hasType isString j second = true
  value : (j.findStr first).or (j.findStr second) = v

/-- The member holds the strings. It may be left out when there are none. -/
def StringsMember (j : Json) (key : Bytes) (values : List Bytes) : Prop :=
  j.find key = some (.arr (values.map .str)) ∨ values = [] ∧ j.find key = none

/-- The value describes the agent. -/
structure Describes (a : AgentRecord) (j : Json) : Prop where
  isObject : j.IsObject
  id : NestedMember j (ascii "agent_id") (ascii "id") (some a.id)
  role : j.find (ascii "role") = a.role.map .str
  version : j.find (ascii "version") = a.version.map .str
  tier : j.find (ascii "tier") = a.tier.map .str
  tags : StringsMember j (ascii "tags") a.tags
  capabilities : StringsMember j (ascii "capabilities") a.capabilities
  path : NestedMember j (ascii "prompt_path") (ascii "path") a.path

/-- The tables link each agent to the names of its tags. -/
def Links (tables : TagTables) (records : List AgentRecord) : Prop :=
  ∀ a ∈ records, ∀ name, name ∈ a.tags ↔ ∃ tagId, (a.id, tagId) ∈ tables.agentTags ∧
    (tagId, name) ∈ tables.tags

/-- The JSON file describes the agents. -/
def InJson (records : List AgentRecord) (client : RegistryClient) : Prop :=
  ∃ values, client.registryJson.find (ascii "agents") = some (.arr values) ∧
    List.Forall₂ Describes records values

/-- The agents are in the database and in the JSON file, with the same data. -/
structure Registered (records : List AgentRecord) (client : RegistryClient) : Prop where
  sqlite : ∃ rows tables, client.db = some { agents := some rows, tagTables := some tables } ∧
    rows.Perm (records.map (·.row)) ∧ Links tables records
  json : InJson records client
  unique : (records.map (·.id)).Nodup

/-- Both queries return the same agents, in any order and number. -/
def SameAgents (x y : Except JsonError (List AgentInfo)) : Prop :=
  ∃ l l', x = .ok l ∧ y = .ok l' ∧ ∀ a, a ∈ l ↔ a ∈ l'

/-- The four queries return the same with the database and without it. -/
structure BackendsAgree (client : RegistryClient) (agentId tag cap : Bytes) : Prop where
  getAgent : client.getAgent agentId = client.withoutDb.getAgent agentId
  findByTag : SameAgents (client.findByTag tag) (client.withoutDb.findByTag tag)
  findByCapability : SameAgents (client.findByCapability cap)
    (client.withoutDb.findByCapability cap)
  listAgents : SameAgents client.listAgents client.withoutDb.listAgents

/-! ## The JSON file -/

section JsonFile

variable {j : Json} {first second key : Bytes} {records : List AgentRecord}
  {client : RegistryClient}

theorem valueStr_member (hobj : j.IsObject) {v : Option Bytes} (h : j.find key = v.map .str)
    (fallback : Bytes) : j.valueStr key fallback = .ok (v.getD fallback) := by
  have htyped : hasType isString j key = true := by
    rw [hasType, h]
    cases v <;> rfl
  rw [Json.valueStr_findStr hobj htyped, Json.findStr, h]
  cases v <;> rfl

theorem valueNested_member (hobj : j.IsObject) {v : Option Bytes}
    (h : NestedMember j first second v) : valueNested j first second = .ok (v.getD []) := by
  rw [valueNested, Json.valueStr_findStr hobj h.second_typed, Outcome.ok_bind,
    Json.valueStr_findStr hobj h.first_typed, ← h.value]
  cases j.findStr first <;> rfl

theorem stringsAt_member {values : List Bytes} (h : StringsMember j key values) :
    stringsAt j key = .ok values := by
  rcases h with hfind | ⟨rfl, hfind⟩
  · have hread := Outcome.mapM_map_ok Json.getStr Json.str id (fun _ => rfl) values
    rw [stringsAt, hfind]
    exact hread.trans (by rw [List.map_id])
  · rw [stringsAt, hfind]

theorem parseAgent_describes {a : AgentRecord} (h : Describes a j) : parseAgent j = .ok a.info := by
  simp only [parseAgent, valueNested_member h.isObject h.id, valueStr_member h.isObject h.role,
    valueStr_member h.isObject h.version, valueStr_member h.isObject h.tier,
    stringsAt_member h.tags,
    stringsAt_member h.capabilities, valueNested_member h.isObject h.path, Outcome.ok_bind]
  rfl

theorem listAgentsJson_eq (h : InJson records client) :
    client.listAgentsJson = .ok (records.map (·.info)) := by
  obtain ⟨values, hvalues, hall⟩ := h
  rw [RegistryClient.listAgentsJson, RegistryClient.agentValues, hvalues]
  clear hvalues
  induction hall with
  | nil => rfl
  | cons hd _ ih =>
    rw [List.mapM_cons, parseAgent_describes hd, ih]
    rfl

theorem searchJson_eq (h : InJson records client) (agentId : Bytes) :
    client.searchJson agentId client.agentValues =
      .ok ((records.find? (·.id = agentId)).map fun a => client.resolvePromptPath a.info) := by
  obtain ⟨values, hvalues, hall⟩ := h
  rw [RegistryClient.agentValues, hvalues]
  clear hvalues
  induction hall with
  | nil => rfl
  | @cons a j records values hd _ ih =>
    rw [RegistryClient.searchJson, valueNested_member hd.isObject hd.id, Outcome.ok_bind,
      Option.getD_some, List.find?_cons]
    by_cases hid : a.id = agentId
    · rw [if_pos hid, parseAgent_describes hd, decide_eq_true hid]
      rfl
    · rw [if_neg hid, decide_eq_false hid]
      exact ih

end JsonFile

/-! ## The queries, backend by backend -/

namespace Registered

variable {records : List AgentRecord} {client : RegistryClient} (h : Registered records client)

include h

theorem eq_of_id {a b : AgentRecord} (ha : a ∈ records) (hb : b ∈ records) (hid : a.id = b.id) :
    a = b :=
  List.inj_on_of_nodup_map h.unique ha hb hid

theorem listAgents_sqlite :
    ∃ l, client.listAgents = .ok l ∧ ∀ x, x ∈ l ↔ ∃ a ∈ records,
      client.resolvePromptPath (rowInfo a.row) = x := by
  obtain ⟨rows, tables, hdb, hperm, _⟩ := h.sqlite
  refine ⟨_, by rw [RegistryClient.listAgents, hdb]; rfl, ?_⟩
  intro x
  rw [List.mem_map]
  simp only [List.mem_mergeSort, hperm.mem_iff, List.mem_map]
  constructor
  · rintro ⟨_, ⟨a, ha, rfl⟩, hx⟩
    exact ⟨a, ha, hx⟩
  · rintro ⟨a, ha, hx⟩
    exact ⟨a.row, ⟨a, ha, rfl⟩, hx⟩

theorem listAgents_json :
    client.withoutDb.listAgents = .ok (records.map fun a => client.resolvePromptPath a.info) := by
  have hjson : client.withoutDb.listAgentsJson = .ok (records.map (·.info)) :=
    listAgentsJson_eq h.json
  rw [RegistryClient.listAgents]
  change client.withoutDb.listAgentsJson.map _ = _
  rw [hjson]
  simp only [Except.map, List.map_map]
  rfl

theorem getAgent_sqlite (agentId : Bytes) :
    client.getAgent agentId =
      match records.find? (·.id = cstr agentId) with
      | some a => .ok (some (client.resolvePromptPath (rowInfo a.row)))
      | none =>
        .ok ((records.find? (·.id = agentId)).map fun a => client.resolvePromptPath a.info) := by
  obtain ⟨rows, tables, hdb, hperm, _⟩ := h.sqlite
  have hrows : rows.find? (·.id = cstr agentId) = (records.find? (·.id = cstr agentId)).map
      (·.row) := by
    cases hfind : records.find? (·.id = cstr agentId) with
    | none =>
      rw [List.find?_eq_none] at hfind
      rw [Option.map_none, List.find?_eq_none]
      intro row hrow
      obtain ⟨a, ha, rfl⟩ := List.mem_map.mp (hperm.mem_iff.mp hrow)
      exact hfind a ha
    | some a =>
      have ha := List.mem_of_find?_eq_some hfind
      have hid : a.id = cstr agentId := by simpa using List.find?_some hfind
      obtain ⟨row, hrow⟩ : ∃ row, rows.find? (·.id = cstr agentId) = some row := by
        rw [← Option.isSome_iff_exists, List.find?_isSome]
        exact ⟨a.row, hperm.mem_iff.mpr (List.mem_map_of_mem ha), decide_eq_true hid⟩
      -- The rows may come in another order, but no two records have one id.
      obtain ⟨b, hb, rfl⟩ := List.mem_map.mp (hperm.mem_iff.mp (List.mem_of_find?_eq_some hrow))
      have hbid : b.row.id = cstr agentId := by simpa using List.find?_some hrow
      rw [hrow, h.eq_of_id hb ha (hbid.trans hid.symm)]
      rfl
  rw [RegistryClient.getAgent, hdb, Option.bind_some, Option.bind_some, hrows]
  cases records.find? (·.id = cstr agentId) with
  | none => exact searchJson_eq h.json agentId
  | some a => rfl

theorem getAgent_json (agentId : Bytes) :
    client.withoutDb.getAgent agentId =
      .ok ((records.find? (·.id = agentId)).map fun a => client.resolvePromptPath a.info) := by
  have hjson : InJson records client.withoutDb := h.json
  exact searchJson_eq hjson agentId

theorem findByTag_json (tag : Bytes) :
    client.withoutDb.findByTag tag = .ok ((records.map (·.info)).filter fun a => tag ∈ a.tags) := by
  have hjson : client.withoutDb.listAgentsJson = .ok (records.map (·.info)) :=
    listAgentsJson_eq h.json
  rw [RegistryClient.findByTag]
  change client.withoutDb.listAgentsJson.map _ = _
  rw [hjson]
  rfl

end Registered

/-! ## Where the backends agree -/

/-- An agent that comes out of both backends alike. -/
structure Portable (a : AgentRecord) : Prop where
  tier : a.tier.isSome
  no_tags : a.tags = []
  no_capabilities : a.capabilities = []
  nul_free : 0 ∉ a.id ∧ 0 ∉ a.role.getD [] ∧ 0 ∉ a.version.getD [] ∧ 0 ∉ a.tier.getD [] ∧
    0 ∉ a.path.getD []

theorem cstr_nul_free (s : Bytes) : 0 ∉ cstr s := by
  intro h
  have := List.mem_takeWhile_imp h
  simp at this

theorem cstr_eq_self {s : Bytes} (h : 0 ∉ s) : cstr s = s := by
  rw [cstr, List.takeWhile_eq_self_iff]
  rintro b hb
  simp only [decide_eq_true_eq]
  rintro rfl
  exact h hb

theorem map_cstr_getD {v : Option Bytes} (h : 0 ∉ v.getD []) :
    (v.map cstr).getD [] = v.getD [] := by
  cases v with
  | none => rfl
  | some s => exact cstr_eq_self h

theorem map_cstr_nul_free (v : Option Bytes) : 0 ∉ (v.map cstr).getD [] := by
  cases v with
  | none => exact List.not_mem_nil
  | some s => exact cstr_nul_free s

theorem nul_mem_resolvePath (client : RegistryClient) (path : Bytes) :
    0 ∈ client.resolvePath path ↔ 0 ∈ path := by
  unfold RegistryClient.resolvePath
  split
  · rfl
  · split
    · rfl
    · rename_i hrel
      split
      · rename_i folder hfolder
        have hfree : 0 ∉ folder := by
          have hmem := List.mem_of_find?_eq_some hfolder
          simp only [RegistryClient.promptPrefixes, List.mem_cons, List.not_mem_nil, or_false]
            at hmem
          rcases hmem with rfl | rfl | rfl <;> decide
        have hslash : (0 : UInt8) ≠ ch '/' := by decide
        unfold appendPath
        rw [if_neg hrel]
        split <;> simp [hfree, hslash]
      · rfl

theorem rowInfo_eq_info {a : AgentRecord} (h : Portable a) : rowInfo a.row = a.info := by
  obtain ⟨hid, hrole, hversion, htier, hpath⟩ := h.nul_free
  obtain ⟨tier, ht⟩ := Option.isSome_iff_exists.mp h.tier
  have htier' : (a.tier.map cstr).getD [] = a.tier.getD (ascii "code") := by
    rw [map_cstr_getD htier, ht]
    rfl
  simp only [rowInfo, AgentRecord.row, AgentRecord.info, cstr_eq_self hid, map_cstr_getD hrole,
    map_cstr_getD hversion, htier', map_cstr_getD hpath, h.no_tags, h.no_capabilities]

namespace Registered

variable {records : List AgentRecord} {client : RegistryClient} (h : Registered records client)

include h

theorem portable_of_listed (hlist : SameAgents client.listAgents client.withoutDb.listAgents) :
    ∀ a ∈ records, Portable a := by
  obtain ⟨l, hl, hmem⟩ := h.listAgents_sqlite
  obtain ⟨l1, l2, h1, h2, hsame⟩ := hlist
  obtain rfl := Except.ok.inj (hl.symm.trans h1)
  obtain rfl := Except.ok.inj (h.listAgents_json.symm.trans h2)
  have hlisted : ∀ a ∈ records, ∃ b ∈ records, client.resolvePromptPath (rowInfo b.row) =
      client.resolvePromptPath a.info :=
    fun a ha => (hmem _).mp ((hsame _).mpr (List.mem_map_of_mem ha))
  -- Whatever the database lists went through a C string, so no field of it holds a zero byte.
  have hid : ∀ a ∈ records, 0 ∉ a.id := by
    intro a ha
    obtain ⟨b, _, heq⟩ := hlisted a ha
    have hb : cstr b.id = a.id := congrArg AgentInfo.id heq
    exact hb ▸ cstr_nul_free b.id
  intro a ha
  obtain ⟨b, hb, heq⟩ := hlisted a ha
  have hsame_id : cstr b.id = a.id := congrArg AgentInfo.id heq
  rw [cstr_eq_self (hid b hb)] at hsame_id
  obtain rfl := h.eq_of_id hb ha hsame_id
  have hrole : (b.role.map cstr).getD [] = b.role.getD [] := congrArg AgentInfo.role heq
  have hversion : (b.version.map cstr).getD [] = b.version.getD [] := congrArg AgentInfo.version heq
  have htier : (b.tier.map cstr).getD [] = b.tier.getD (ascii "code") := congrArg AgentInfo.tier heq
  have hpath : client.resolvePath ((b.path.map cstr).getD []) =
      client.resolvePath (b.path.getD []) :=
    congrArg AgentInfo.promptPath heq
  have htags : [] = b.tags := congrArg AgentInfo.tags heq
  have hcaps : [] = b.capabilities := congrArg AgentInfo.capabilities heq
  have hsome : b.tier.isSome := by
    cases ht : b.tier with
    | none =>
      rw [ht] at htier
      exact absurd htier (by decide)
    | some t => rfl
  have htier_free : 0 ∉ b.tier.getD [] := by
    obtain ⟨t, ht⟩ := Option.isSome_iff_exists.mp hsome
    rw [ht] at htier ⊢
    exact (show cstr t = t from htier) ▸ cstr_nul_free t
  refine ⟨hsome, htags.symm, hcaps.symm, hid b hb, ?_, ?_, htier_free, ?_⟩
  · exact hrole ▸ map_cstr_nul_free b.role
  · exact hversion ▸ map_cstr_nul_free b.version
  · rw [← nul_mem_resolvePath client, ← hpath, nul_mem_resolvePath client]
    exact map_cstr_nul_free b.path

section Portable

variable (hport : ∀ a ∈ records, Portable a)

include hport

theorem listAgents_same : SameAgents client.listAgents client.withoutDb.listAgents := by
  obtain ⟨l, hl, hmem⟩ := h.listAgents_sqlite
  refine ⟨l, _, hl, h.listAgents_json, ?_⟩
  intro x
  rw [hmem, List.mem_map]
  constructor
  · rintro ⟨a, ha, rfl⟩
    exact ⟨a, ha, by rw [rowInfo_eq_info (hport a ha)]⟩
  · rintro ⟨a, ha, rfl⟩
    exact ⟨a, ha, by rw [rowInfo_eq_info (hport a ha)]⟩

theorem findByCapability_same (cap : Bytes) :
    SameAgents (client.findByCapability cap) (client.withoutDb.findByCapability cap) := by
  obtain ⟨l, hl, hmem⟩ := h.listAgents_sqlite
  refine ⟨_, _, by rw [RegistryClient.findByCapability, hl]; rfl,
    by rw [RegistryClient.findByCapability, h.listAgents_json]; rfl, ?_⟩
  intro x
  simp only [List.mem_filter, hmem, List.mem_map]
  constructor
  · rintro ⟨⟨a, _, rfl⟩, hcap⟩
    exact absurd (of_decide_eq_true hcap) List.not_mem_nil
  · rintro ⟨⟨a, ha, rfl⟩, hcap⟩
    have hin : cap ∈ a.capabilities := of_decide_eq_true hcap
    rw [(hport a ha).no_capabilities] at hin
    exact absurd hin List.not_mem_nil

theorem findByTag_same (tag : Bytes) :
    SameAgents (client.findByTag tag) (client.withoutDb.findByTag tag) := by
  obtain ⟨rows, tables, hdb, hperm, hlinks⟩ := h.sqlite
  refine ⟨_, _, by rw [RegistryClient.findByTag, hdb]; rfl, h.findByTag_json tag, ?_⟩
  intro x
  constructor
  · intro hx
    obtain ⟨row, hrow, rfl⟩ := List.mem_map.mp hx
    obtain ⟨row', hrow', hlinked⟩ := List.mem_flatMap.mp hrow
    obtain ⟨a, ha, rfl⟩ := List.mem_map.mp (hperm.mem_iff.mp hrow')
    obtain ⟨link, hlink, hjoin⟩ := List.mem_flatMap.mp hlinked
    split at hjoin
    · rename_i hid
      obtain ⟨t, ht, _⟩ := List.mem_map.mp hjoin
      obtain ⟨htag, hmatch⟩ := List.mem_filter.mp ht
      obtain ⟨hlink_tag, hname⟩ := of_decide_eq_true hmatch
      -- A join that finds something has found a tag, and a portable agent has none.
      have hin : cstr tag ∈ a.tags := by
        refine (hlinks a ha (cstr tag)).mpr ⟨link.2, ?_, ?_⟩
        · rw [show a.id = link.1 from hid]
          exact hlink
        · rw [← hname, hlink_tag]
          exact htag
      rw [(hport a ha).no_tags] at hin
      exact absurd hin List.not_mem_nil
    · exact absurd hjoin List.not_mem_nil
  · intro hx
    obtain ⟨hmem, htag⟩ := List.mem_filter.mp hx
    obtain ⟨a, ha, rfl⟩ := List.mem_map.mp hmem
    have hin : tag ∈ a.tags := of_decide_eq_true htag
    rw [(hport a ha).no_tags] at hin
    exact absurd hin List.not_mem_nil

theorem getAgent_same_iff (agentId : Bytes) :
    client.getAgent agentId = client.withoutDb.getAgent agentId ↔ 0 ∉ agentId ∨ ∀ a ∈ records,
      a.id ≠ cstr agentId := by
  rw [h.getAgent_sqlite, h.getAgent_json]
  cases hfind : records.find? (·.id = cstr agentId) with
  | none =>
    rw [List.find?_eq_none] at hfind
    refine iff_of_true rfl (Or.inr fun a ha heq => ?_)
    exact hfind a ha (decide_eq_true heq)
  | some a =>
    have ha := List.mem_of_find?_eq_some hfind
    have hid : a.id = cstr agentId := by simpa using List.find?_some hfind
    by_cases hnul : 0 ∈ agentId
    · -- the query is cut to the id of an agent, and no id has a zero byte
      have hnone : records.find? (·.id = agentId) = none := by
        rw [List.find?_eq_none]
        intro b hb heq
        exact (hport b hb).nul_free.1 ((of_decide_eq_true heq : b.id = agentId) ▸ hnul)
      rw [hnone]
      refine iff_of_false nofun ?_
      rintro (hfree | hother)
      · exact hfree hnul
      · exact hother a ha hid
    · rw [cstr_eq_self hnul] at hfind
      simp only [hfind, Option.map_some, rowInfo_eq_info (hport a ha)]
      exact iff_of_true trivial (Or.inl hnul)

end Portable

end Registered

/-- **The two registries.** The queries agree exactly when no agent has a tag or a capability, every
agent has a tier, no field has a zero byte, and the id that is asked for is not cut to the id of an
agent. -/
theorem registry_backends_agree_iff (records : List AgentRecord) (client : RegistryClient)
    (h : Registered records client) (agentId tag cap : Bytes) :
    BackendsAgree client agentId tag cap ↔
      (∀ a ∈ records, Portable a) ∧ (0 ∉ agentId ∨ ∀ a ∈ records, a.id ≠ cstr agentId) := by
  constructor
  · intro hagree
    have hport := h.portable_of_listed hagree.listAgents
    exact ⟨hport, (h.getAgent_same_iff hport agentId).mp hagree.getAgent⟩
  · rintro ⟨hport, hquery⟩
    exact ⟨(h.getAgent_same_iff hport agentId).mpr hquery, h.findByTag_same hport tag,
      h.findByCapability_same hport cap, h.listAgents_same hport⟩

/-! ## Two agents -/

def plainAgent : AgentRecord :=
  { id := ascii "a", role := some (ascii "coder"), tier := some (ascii "code") }

def plainClient : RegistryClient where
  dataDir := ascii "data"
  db := some { agents := some [plainAgent.row], tagTables := some { tags := [], agentTags := [] } }
  registryJson := .obj
    [(ascii "agents", .arr [.obj [(ascii "agent_id", .str (ascii "a")),
      (ascii "role", .str (ascii "coder")), (ascii "tier", .str (ascii "code"))]])]
  fileExists _ := false

theorem registered_plainClient : Registered [plainAgent] plainClient where
  sqlite := by
    refine ⟨_, _, rfl, List.Perm.refl _, ?_⟩
    intro a ha name
    obtain rfl := List.mem_singleton.mp ha
    simp [plainAgent]
  json := ⟨_, rfl, .cons ⟨trivial, ⟨rfl, rfl, rfl⟩, rfl, rfl, rfl, Or.inr ⟨rfl, rfl⟩,
    Or.inr ⟨rfl, rfl⟩, ⟨rfl, rfl, rfl⟩⟩ .nil⟩
  unique := by decide

theorem registry_backends_agree_plain :
    BackendsAgree plainClient (ascii "a") (ascii "backend") (ascii "review") := by
  refine (registry_backends_agree_iff [plainAgent] plainClient registered_plainClient _ _ _).mpr
    ⟨?_, Or.inl (by decide)⟩
  intro a ha
  obtain rfl := List.mem_singleton.mp ha
  exact ⟨rfl, rfl, rfl, by decide⟩

def taggedAgent : AgentRecord := { plainAgent with tags := [ascii "backend"] }

def taggedClient : RegistryClient where
  dataDir := ascii "data"
  db := some { agents := some [taggedAgent.row]
               tagTables := some { tags := [(1, ascii "backend")], agentTags := [(ascii "a", 1)] } }
  registryJson := .obj
    [(ascii "agents", .arr
      [.obj [(ascii "agent_id", .str (ascii "a")), (ascii "role", .str (ascii "coder")),
        (ascii "tags", .arr [.str (ascii "backend")]), (ascii "tier", .str (ascii "code"))]])]
  fileExists _ := false

theorem registered_taggedClient : Registered [taggedAgent] taggedClient where
  sqlite := by
    refine ⟨_, _, rfl, List.Perm.refl _, ?_⟩
    intro a ha name
    obtain rfl := List.mem_singleton.mp ha
    simp [taggedAgent, plainAgent]
  json := ⟨_, rfl, .cons ⟨trivial, ⟨rfl, rfl, rfl⟩, rfl, rfl, rfl, Or.inl rfl, Or.inr ⟨rfl, rfl⟩,
    ⟨rfl, rfl, rfl⟩⟩ .nil⟩
  unique := by decide

theorem tagged_agent_differs :
    Registered [taggedAgent] taggedClient ∧
      ¬ BackendsAgree taggedClient (ascii "a") (ascii "backend") (ascii "review") := by
  refine ⟨registered_taggedClient, fun hagree => ?_⟩
  have hport := registered_taggedClient.portable_of_listed hagree.listAgents taggedAgent
    List.mem_cons_self
  exact absurd hport.no_tags (by decide)

end Euxis.Cli
