import Euxis.Sbom.Spdx
import Mathlib.Data.List.Nodup

/-!
# When the SPDX export keeps the graph
-/

namespace Euxis.Sbom

/-! ## Reading the export -/

def graphNodes (out : Json) : List Json :=
  match out.find (ascii "@graph") with
  | some (.arr nodes) => nodes
  | _ => []

def hasType (type : Bytes) (node : Json) : Bool := node.findStr (ascii "@type") = some type

/-- The identifiers of the packages, in the order of the export. -/
def packageIds (out : Json) : List Bytes :=
  ((graphNodes out).filter (hasType (ascii "Package"))).map fun n =>
    (n.findStr (ascii "spdxId")).getD []

def relationTargets (node : Json) : List Bytes :=
  match node.find (ascii "to") with
  | some (.arr [.str t]) => [t]
  | _ => []

/-- The relationships, each with its source and its targets. -/
def relationships (out : Json) : List (Bytes × List Bytes) :=
  ((graphNodes out).filter (hasType (ascii "Relationship"))).map fun n =>
    ((n.findStr (ascii "from")).getD [], relationTargets n)

/-- A node under construction, once its type and its identifier are set. -/
structure Tagged (node : Json) (type id : Bytes) : Prop where
  settable : node.Settable
  type_eq : node.findStr (ascii "@type") = some type
  id_eq : node.findStr (ascii "spdxId") = some id

theorem tagged_start (type id : Bytes) :
    Tagged ((Json.null.set (ascii "@type") (.str type)).set (ascii "spdxId") (.str id))
      type id := by
  have hstart : (Json.null.set (ascii "@type") (.str type)).Settable := trivial
  refine ⟨Json.settable_set _ _ _ hstart, ?_, Json.findStr_set _ _ _ hstart⟩
  rw [Json.findStr_set_ne _ _ _ _ hstart (by decide)]
  exact Json.findStr_set _ _ _ trivial

theorem tagged_set (node : Json) (type id key : Bytes) (v : Json) (h : Tagged node type id)
    (htype : ascii "@type" ≠ key) (hid : ascii "spdxId" ≠ key) :
    Tagged (node.set key v) type id := by
  refine ⟨Json.settable_set _ _ _ h.settable, ?_, ?_⟩
  · rw [Json.findStr_set_ne _ _ _ _ h.settable htype]
    exact h.type_eq
  · rw [Json.findStr_set_ne _ _ _ _ h.settable hid]
    exact h.id_eq

theorem tagged_setUnless (p : Prop) [Decidable p] (node : Json) (type id key : Bytes) (v : Json)
    (h : Tagged node type id) (htype : ascii "@type" ≠ key) (hid : ascii "spdxId" ≠ key) :
    Tagged (if p then node else node.set key v) type id := by
  split
  · exact h
  · exact tagged_set node type id key v h htype hid

theorem packageToNode_tagged (c : Component) :
    Tagged (packageToNode c) (ascii "Package") (spdxid c.elementRef) := by
  have h := tagged_start (ascii "Package") (spdxid c.elementRef)
  have h := tagged_set _ _ _ (ascii "name") (.str c.name) h (by decide) (by decide)
  have h := tagged_setUnless (c.version = []) _ _ _ (ascii "packageVersion") (.str c.version) h
    (by decide) (by decide)
  have h := tagged_setUnless (c.supplier = []) _ _ _ (ascii "supplier") (organization c.supplier) h
    (by decide) (by decide)
  have h := tagged_setUnless (c.publisher = []) _ _ _ (ascii "originator")
    (organization c.publisher) h (by decide)
    (by decide)
  have h := tagged_setUnless (c.description = []) _ _ _ (ascii "description") (.str c.description) h
    (by decide) (by decide)
  have h := tagged_setUnless (c.purl = []) _ _ _ (ascii "externalIdentifier")
    (.arr [purlIdentifier c.purl]) h (by decide)
    (by decide)
  have h := tagged_setUnless (c.hashes = []) _ _ _ (ascii "verifiedUsing")
    (.arr (c.hashes.map hashToNode)) h
    (by decide) (by decide)
  unfold packageToNode
  dsimp only
  split
  · exact h
  · exact tagged_setUnless _ _ _ _ (ascii "concludedLicense") _ h (by decide) (by decide)

theorem creationToNode_type (doc : SbomDocument) :
    (creationToNode doc).findStr (ascii "@type") = some (ascii "CreationInfo") := by
  have h := tagged_start (ascii "CreationInfo") (ascii "_:creationinfo")
  have h := tagged_set _ _ _ (ascii "created") (.str (Clock.isoTime doc.createdAt)) h
    (by decide) (by decide)
  have h := tagged_set _ _ _ (ascii "specVersion") (.str (ascii "3.0.1")) h (by decide) (by decide)
  unfold creationToNode
  dsimp only
  split
  · exact h.type_eq
  · exact (tagged_set _ _ _ _ _ h (by decide) (by decide)).type_eq

theorem documentToNode_type (serial : Bytes) (doc : SbomDocument) :
    (documentToNode serial doc).findStr (ascii "@type") = some (ascii "SpdxDocument") := by
  have h := tagged_start (ascii "SpdxDocument")
    (doc.documentNamespace ++ ascii "/" ++ (if doc.serialNumber = [] then serial
      else doc.serialNumber))
  have h := tagged_set _ _ _ (ascii "name")
    (.str ((doc.root.map (·.name)).getD (ascii "euxis-scan"))) h (by decide)
    (by decide)
  have h := tagged_set _ _ _ (ascii "dataLicense") (.str (ascii "CC0-1.0")) h
    (by decide) (by decide)
  have h := tagged_set _ _ _ (ascii "creationInfo") (.str (ascii "_:creationinfo")) h
    (by decide) (by decide)
  exact h.type_eq

theorem relationshipToNode_fields (fromRef toRef : Bytes) :
    (relationshipToNode fromRef toRef).findStr (ascii "@type") = some (ascii "Relationship") ∧
      (relationshipToNode fromRef toRef).findStr (ascii "from") = some (spdxid fromRef) ∧
      relationTargets (relationshipToNode fromRef toRef) = [spdxid toRef] := by
  unfold relationshipToNode
  generalize spdxid fromRef = a
  generalize spdxid toRef = b
  exact ⟨rfl, rfl, rfl⟩

theorem filter_map_type (type tag : Bytes) {α : Type} (l : List α) (f : α → Json)
    (hf : ∀ a, (f a).findStr (ascii "@type") = some tag) :
    (l.map f).filter (hasType type) = if tag = type then l.map f else [] := by
  have htype : ∀ n ∈ l.map f, hasType type n = decide (tag = type) := by
    intro n hn
    obtain ⟨a, -, rfl⟩ := List.mem_map.mp hn
    unfold hasType
    rw [hf a]
    simp
  split
  · rename_i heq
    rw [List.filter_eq_self]
    intro n hn
    rw [htype n hn]
    exact decide_eq_true heq
  · rename_i hne
    rw [List.filter_eq_nil_iff]
    intro n hn
    rw [htype n hn]
    simpa using hne

theorem graphNodes_toSpdx301 (serial : Bytes) (doc : SbomDocument) :
    graphNodes (toSpdx301 serial doc) =
      creationToNode doc :: documentToNode serial doc ::
        ((doc.root.toList ++ doc.components).map packageToNode ++
        doc.edges.map fun e => relationshipToNode e.1 e.2) := by
  have hfind : ∀ nodes v,
      (((Json.null.set (ascii "@context") v).set (ascii "@graph") (.arr nodes)).find
      (ascii "@graph")) = some (.arr nodes) := fun nodes v => Json.find_set _ _ _ trivial
  unfold graphNodes toSpdx301
  dsimp only
  rw [hfind]

theorem filter_graphNodes (type serial : Bytes) (doc : SbomDocument)
    (hcreation : ascii "CreationInfo" ≠ type) (hdocument : ascii "SpdxDocument" ≠ type) :
    (graphNodes (toSpdx301 serial doc)).filter (hasType type) =
      (if ascii "Package" = type then (doc.root.toList ++ doc.components).map packageToNode
        else []) ++
        if ascii "Relationship" = type then doc.edges.map fun e => relationshipToNode e.1 e.2
        else [] := by
  have hfirst : hasType type (creationToNode doc) ≠ true := by
    unfold hasType
    rw [creationToNode_type]
    simpa using hcreation
  have hsecond : hasType type (documentToNode serial doc) ≠ true := by
    unfold hasType
    rw [documentToNode_type]
    simpa using hdocument
  rw [graphNodes_toSpdx301, List.filter_cons_of_neg hfirst, List.filter_cons_of_neg hsecond,
    List.filter_append,
    filter_map_type type (ascii "Package") _ packageToNode fun c =>
      (packageToNode_tagged c).type_eq,
    filter_map_type type (ascii "Relationship") _ (fun e :
      Bytes × Bytes => relationshipToNode e.1 e.2) fun e =>
      (relationshipToNode_fields e.1 e.2).1]

theorem packageIds_toSpdx301 (serial : Bytes) (doc : SbomDocument) :
    packageIds (toSpdx301 serial doc) = (doc.root.toList ++ doc.components).map fun c =>
      spdxid c.elementRef := by
  unfold packageIds
  rw [filter_graphNodes _ _ _ (by decide) (by decide), if_pos rfl, if_neg (by decide),
    List.append_nil, List.map_map]
  apply List.map_congr_left
  intro c _
  rw [Function.comp_apply, (packageToNode_tagged c).id_eq, Option.getD_some]

theorem relationships_toSpdx301 (serial : Bytes) (doc : SbomDocument) :
    relationships (toSpdx301 serial doc) = doc.edges.map fun e => (spdxid e.1, [spdxid e.2]) := by
  unfold relationships
  rw [filter_graphNodes _ _ _ (by decide) (by decide), if_neg (by decide), if_pos rfl,
    List.nil_append, List.map_map]
  apply List.map_congr_left
  intro e _
  obtain ⟨-, hfrom, hto⟩ := relationshipToNode_fields e.1 e.2
  rw [Function.comp_apply, hfrom, hto, Option.getD_some]

/-! ## References that look alike -/

/-- Bytes that stay as they are and that no other byte becomes. -/
def Kept (c : UInt8) : Prop := Bytes.isAlnum c = true ∨ c = ch '.'

instance : DecidablePred Kept :=
  fun c => inferInstanceAs (Decidable (Bytes.isAlnum c = true ∨ c = ch '.'))

/-- Two bytes that one identifier does not tell apart. -/
def SameMark (x y : UInt8) : Prop := x = y ∨ (¬ Kept x ∧ ¬ Kept y)

def LookAlike (a b : Bytes) : Prop := List.Forall₂ SameMark a b

theorem spdxByte_eq_iff (x y : UInt8) : spdxByte x = spdxByte y ↔ SameMark x y := by
  have hhyphen : ¬ Kept (ch '-') := by decide
  -- A byte is kept or becomes a hyphen, and the hyphen itself counts as not kept.
  have hbyte : ∀ c, (Kept c ∧ spdxByte c = c) ∨ (¬ Kept c ∧ spdxByte c = ch '-') := by
    intro c
    unfold Kept spdxByte
    by_cases halnum : Bytes.isAlnum c = true
    · simp [halnum]
    · by_cases hdot : c = ch '.'
      · simp [hdot]
      · by_cases hhyp : c = ch '-'
        · simp [hhyp]
          decide
        · simp [halnum, hdot, hhyp]
  unfold SameMark
  rcases hbyte x with ⟨hx, hx'⟩ | ⟨hx, hx'⟩ <;> rcases hbyte y with ⟨hy, hy'⟩ | ⟨hy, hy'⟩
    <;> rw [hx', hy']
  · simp [hx]
  · simp only [hx, not_true_eq_false, false_and, or_false]
    constructor
    · intro h
      exact absurd (h ▸ hx) hhyphen
    · intro h
      exact absurd (h ▸ hx) hy
  · simp only [hy, not_true_eq_false, and_false, or_false]
    constructor
    · intro h
      exact absurd (h ▸ hy) hhyphen
    · intro h
      exact absurd (h ▸ hy) hx
  · simp [hx, hy]

theorem spdxid_eq_iff (a b : Bytes) : spdxid a = spdxid b ↔ LookAlike a b := by
  unfold spdxid LookAlike
  rw [List.append_cancel_left_eq]
  induction a generalizing b with
  | nil =>
    cases b with
    | nil => simp
    | cons y b => simp
  | cons x a ih =>
    cases b with
    | nil => simp
    | cons y b =>
      rw [List.map_cons, List.map_cons, List.cons.injEq, spdxByte_eq_iff, ih, List.forall₂_cons]

/-! ## The graph -/

/-- Exactly one package has the identifier `id`, and it is the package of a component with the
reference `ref`. -/
def NamesPackage (doc : SbomDocument) (out : Json) (ref id : Bytes) : Prop :=
  ∃ i c, doc.components[i]? = some c ∧ c.bomRef = ref ∧
    ∀ j, (packageIds out)[j]? = some id ↔ j = doc.root.toList.length + i

/-- Components have identifiers of their own, and each relationship names the packages of its two
references. The package of the root, if there is one, comes before those of the components. -/
structure GraphPreserved (doc : SbomDocument) (out : Json) : Prop where
  distinct : ((packageIds out).drop doc.root.toList.length).Nodup
  related : List.Forall₂ (fun e r => NamesPackage doc out e.1 r.1 ∧ ∃ t, r.2 = [t] ∧
    NamesPackage doc out e.2 t)
    doc.edges (relationships out)

def SbomDocument.referenced (doc : SbomDocument) : List Bytes :=
  doc.edges.flatMap fun e => [e.1, e.2]

/-- The identifiers can tell the components apart, and the root from the components that
dependencies refer to. A dependency may refer to a component without a reference only if it has no
purl and no name either. -/
structure TellsApart (doc : SbomDocument) : Prop where
  components : (doc.components.map (·.elementRef)).Pairwise fun a b => ¬ LookAlike a b
  empty : [] ∈ doc.referenced → ∀ c ∈ doc.components, c.bomRef = [] → c.purl = [] ∧ c.name = []
  root : ∀ root ∈ doc.root, ∀ ref ∈ doc.referenced, ¬ LookAlike root.elementRef ref

theorem elementRef_eq_bomRef (c : Component) :
    c.elementRef = c.bomRef ↔ (c.bomRef = [] → c.purl = [] ∧ c.name = []) := by
  unfold Component.elementRef
  by_cases href : c.bomRef = []
  · by_cases hpurl : c.purl = []
    · simp [href, hpurl]
    · simp [href, hpurl]
  · simp [href]

theorem lookAlike_nil (a : Bytes) : LookAlike a [] ↔ a = [] := by
  unfold LookAlike
  rw [List.forall₂_nil_right_iff]

section

variable (serial : Bytes) (doc : SbomDocument)

theorem distinct_iff :
    ((packageIds (toSpdx301 serial doc)).drop doc.root.toList.length).Nodup ↔
      (doc.components.map (·.elementRef)).Pairwise fun a b => ¬ LookAlike a b := by
  rw [packageIds_toSpdx301, List.map_append, List.drop_left' (by rw [List.length_map])]
  unfold List.Nodup
  rw [List.pairwise_map, List.pairwise_map]
  constructor
  · intro h
    exact h.imp fun hne halike => hne ((spdxid_eq_iff _ _).mpr halike)
  · intro h
    exact h.imp fun hne heq => hne ((spdxid_eq_iff _ _).mp heq)

theorem related_iff (R : Bytes → Bytes → Prop) :
    List.Forall₂ (fun e r => R e.1 r.1 ∧ ∃ t, r.2 = [t] ∧
      R e.2 t) doc.edges (relationships (toSpdx301 serial doc)) ↔
      ∀ ref ∈ doc.referenced, R ref (spdxid ref) := by
  rw [relationships_toSpdx301, List.forall₂_map_right_iff, List.forall₂_same]
  unfold SbomDocument.referenced
  simp only [List.cons.injEq, and_true, exists_eq_left', List.mem_flatMap, List.mem_cons,
    List.not_mem_nil, or_false]
  constructor
  · rintro h ref ⟨e, he, rfl | rfl⟩
    · exact (h e he).1
    · exact (h e he).2
  · intro h e he
    exact ⟨h e.1 ⟨e, he, Or.inl rfl⟩, h e.2 ⟨e, he, Or.inr rfl⟩⟩

theorem packageIds_component (i : Nat) :
    (packageIds (toSpdx301 serial doc))[doc.root.toList.length + i]? =
      doc.components[i]?.map fun c => spdxid c.elementRef := by
  rw [packageIds_toSpdx301, List.getElem?_map, List.getElem?_append_right (Nat.le_add_right _ _),
    Nat.add_sub_cancel_left]

theorem packageIds_cases (j : Nat) (id : Bytes)
    (h : (packageIds (toSpdx301 serial doc))[j]? = some id) :
    (j < doc.root.toList.length ∧ ∃ root ∈ doc.root, spdxid root.elementRef = id) ∨
      ∃ i c, j = doc.root.toList.length + i ∧ doc.components[i]? = some c ∧
        spdxid c.elementRef = id := by
  by_cases hj : j < doc.root.toList.length
  · left
    refine ⟨hj, ?_⟩
    rw [packageIds_toSpdx301, List.getElem?_map, List.getElem?_append_left hj,
      Option.map_eq_some_iff] at h
    obtain ⟨root, hroot, rfl⟩ := h
    exact ⟨root, Option.mem_toList.mp (List.mem_of_getElem? hroot), rfl⟩
  · right
    obtain ⟨i, rfl⟩ := Nat.exists_eq_add_of_le (Nat.le_of_not_lt hj)
    rw [packageIds_component, Option.map_eq_some_iff] at h
    obtain ⟨c, hc, rfl⟩ := h
    exact ⟨i, c, rfl, hc, rfl⟩

theorem component_index_unique (h : TellsApart doc) (i i' : Nat) (c c' : Component)
    (hi : doc.components[i]? = some c) (hi' : doc.components[i']? = some c')
    (hid : spdxid c'.elementRef = spdxid c.elementRef) : i' = i := by
  have hnodup := (distinct_iff [] doc).mpr h.components
  rw [packageIds_toSpdx301, List.map_append, List.drop_left' (by rw [List.length_map])] at hnodup
  have hlen : i' < (doc.components.map fun c => spdxid c.elementRef).length := by
    rw [List.length_map]
    exact (List.getElem?_eq_some_iff.mp hi').1
  apply (List.getElem?_inj hlen hnodup).mp
  rw [List.getElem?_map, List.getElem?_map, hi, hi', Option.map_some, Option.map_some, hid]

theorem namesPackage_of_tellsApart (h : TellsApart doc) (ref : Bytes) (href : ref ∈ doc.referenced)
    (hknown : ref ∈ doc.components.map (·.bomRef)) :
    NamesPackage doc (toSpdx301 serial doc) ref (spdxid ref) := by
  obtain ⟨c, hc, hbom⟩ := List.mem_map.mp hknown
  obtain ⟨i, hi⟩ := List.mem_iff_getElem?.mp hc
  have hself : c.elementRef = ref := by
    rw [← hbom, elementRef_eq_bomRef]
    intro hnil
    apply h.empty _ c hc hnil
    rw [← hnil, hbom]
    exact href
  refine ⟨i, c, hi, hbom, ?_⟩
  intro j
  constructor
  · intro hj
    rcases packageIds_cases serial doc j (spdxid ref) hj
      with ⟨-, root, hroot, hid⟩ | ⟨i', c', rfl, hi', hid⟩
    · exact absurd ((spdxid_eq_iff _ _).mp hid) (h.root root hroot ref href)
    · rw [component_index_unique doc h i i' c c' hi hi' (by rw [hself, hid])]
  · rintro rfl
    rw [packageIds_component, hi, Option.map_some, hself]

theorem tellsApart_of_namesPackage (hdistinct : (doc.components.map (·.bomRef)).Nodup)
    (hnodup : ((packageIds (toSpdx301 serial doc)).drop doc.root.toList.length).Nodup)
    (hnames : ∀ ref ∈ doc.referenced, NamesPackage doc (toSpdx301 serial doc) ref (spdxid ref)) :
    TellsApart doc := by
  refine ⟨(distinct_iff serial doc).mp hnodup, ?_, ?_⟩
  · intro hempty c hc href
    obtain ⟨i, c', hget, href', huniq⟩ := hnames [] hempty
    obtain rfl : c = c' :=
      List.inj_on_of_nodup_map hdistinct hc (List.mem_of_getElem? hget) (href.trans href'.symm)
    have hid := (huniq (doc.root.toList.length + i)).mpr rfl
    rw [packageIds_component, hget, Option.map_some, Option.some.injEq, spdxid_eq_iff,
      lookAlike_nil] at hid
    exact (elementRef_eq_bomRef c).mp (hid.trans href.symm) href
  · intro root hroot ref href halike
    obtain ⟨i, c, -, -, huniq⟩ := hnames ref href
    have hzero : (packageIds (toSpdx301 serial doc))[0]? = some (spdxid ref) := by
      rw [packageIds_toSpdx301, Option.mem_def.mp hroot, ← (spdxid_eq_iff _ _).mpr halike]
      rfl
    have hlt := (huniq 0).mp hzero
    rw [Option.mem_def.mp hroot] at hlt
    simp at hlt
    omega

end

/-- The export preserves the graph exactly when its identifiers tell apart what they name. -/
theorem spdx_graph_preserved_iff (serial : Bytes) (doc : SbomDocument)
    (hdistinct : (doc.components.map (·.bomRef)).Nodup)
    (hrefs : ∀ ref ∈ doc.referenced, ref ∈ doc.components.map (·.bomRef)) :
    GraphPreserved doc (toSpdx301 serial doc) ↔ TellsApart doc := by
  constructor
  · rintro ⟨hnodup, hrelated⟩
    have hnames := (related_iff serial doc (NamesPackage doc (toSpdx301 serial doc))).mp hrelated
    exact tellsApart_of_namesPackage serial doc hdistinct hnodup hnames
  · intro h
    refine ⟨(distinct_iff serial doc).mpr h.components, ?_⟩
    rw [related_iff serial doc (NamesPackage doc (toSpdx301 serial doc))]
    intro ref href
    exact namesPackage_of_tellsApart serial doc h ref href (hrefs ref href)

/-- Both references get the identifier `SPDXRef-pkg-cargo-foo-bar-1.0.0`. -/
def crateDoc : SbomDocument :=
  { components := [{ bomRef := ascii "pkg:cargo/foo-bar@1.0.0", name := ascii "foo-bar" },
      { bomRef := ascii "pkg:cargo/foo_bar@1.0.0", name := ascii "foo_bar" }]
    dependencies := [{ ref := ascii "pkg:cargo/foo-bar@1.0.0",
                       dependsOn := [ascii "pkg:cargo/foo_bar@1.0.0"] }] }

theorem crate_ids_collide :
    (crateDoc.components.map (·.bomRef)).Nodup ∧
      (∀ ref ∈ crateDoc.referenced, ref ∈ crateDoc.components.map (·.bomRef)) ∧
      ¬ GraphPreserved crateDoc (toSpdx301 (ascii "urn:uuid:0") crateDoc) := by
  refine ⟨by decide, by decide, ?_⟩
  intro h
  have hdistinct := (distinct_iff (ascii "urn:uuid:0") crateDoc).mp h.distinct
  have hfirst := List.rel_of_pairwise_cons hdistinct (List.mem_singleton_self _)
  apply hfirst
  rw [← spdxid_eq_iff]
  decide

theorem dashed_graph_preserved :
    GraphPreserved
      { components := [{ bomRef := ascii "a-1",
                         name := ascii "a" }, { bomRef := ascii "b.2", name := ascii "b" }]
        dependencies := [{ ref := ascii "a-1", dependsOn := [ascii "b.2"] }] }
      (toSpdx301 (ascii "urn:uuid:0")
        { components := [{ bomRef := ascii "a-1",
                           name := ascii "a" }, { bomRef := ascii "b.2", name := ascii "b" }]
          dependencies := [{ ref := ascii "a-1", dependsOn := [ascii "b.2"] }] }) := by
  apply (spdx_graph_preserved_iff (ascii "urn:uuid:0") _ (by decide) (by decide)).mpr
  refine ⟨?_, by decide, nofun⟩
  simp only [List.map_cons, List.map_nil, List.pairwise_cons, List.mem_singleton, forall_eq,
    List.not_mem_nil, false_implies, implies_true, List.Pairwise.nil, and_true, ← spdxid_eq_iff]
  decide

end Euxis.Sbom
