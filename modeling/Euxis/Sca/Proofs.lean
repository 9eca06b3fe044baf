import Euxis.Sbom.PurlRoundTrip
import Euxis.Sca.Code

/-!
# What the SBOM of a scan holds

The components are the packages of all manifests, each once. The edges go through a map that knows
packages by their bare name, so they are those of the manifests only where bare names are enough.
-/

namespace Euxis.Sca

open Sbom

/-! ## First occurrences -/

/-- The values of `all`, each once, in the order of their first occurrence. -/
structure FirstOccurrences {α : Type} [BEq α] (all kept : List α) : Prop where
  nodup : kept.Nodup
  mem : ∀ x, x ∈ kept ↔ x ∈ all
  order : ∀ x ∈ all, ∀ y ∈ all, kept.idxOf x < kept.idxOf y ↔ all.idxOf x < all.idxOf y

section FirstOccurrences

variable {α : Type} [BEq α] [LawfulBEq α] {all kept : List α}

theorem firstOccurrences_nil : FirstOccurrences ([] : List α) [] := by
  refine ⟨List.nodup_nil, ?_, ?_⟩
  · simp
  · simp

theorem FirstOccurrences.again (h : FirstOccurrences all kept) (x : α) (hx : x ∈ all) :
    FirstOccurrences (all ++ [x]) kept := by
  have hmem : ∀ y, y ∈ all ++ [x] ↔ y ∈ all := by
    intro y
    rw [List.mem_append, List.mem_singleton]
    constructor
    · rintro (hy | rfl)
      · exact hy
      · exact hx
    · exact Or.inl
  refine ⟨h.nodup, ?_, ?_⟩
  · intro y
    rw [h.mem, hmem]
  · intro y hy z hz
    rw [hmem] at hy hz
    rw [List.idxOf_append_of_mem hy, List.idxOf_append_of_mem hz]
    exact h.order y hy z hz

theorem FirstOccurrences.fresh (h : FirstOccurrences all kept) (x : α) (hx : x ∉ all) :
    FirstOccurrences (all ++ [x]) (kept ++ [x]) := by
  have hkept : x ∉ kept := fun hmem => hx ((h.mem x).mp hmem)
  have hold : ∀ y ∈ all, (all ++ [x]).idxOf y = all.idxOf y ∧ (kept ++ [x]).idxOf y = kept.idxOf y ∧
      all.idxOf y < all.length ∧ kept.idxOf y < kept.length := by
    intro y hy
    have hy' := (h.mem y).mpr hy
    exact ⟨List.idxOf_append_of_mem hy, List.idxOf_append_of_mem hy',
      List.idxOf_lt_length_of_mem hy, List.idxOf_lt_length_of_mem hy'⟩
  have hnew : (all ++ [x]).idxOf x = all.length ∧ (kept ++ [x]).idxOf x = kept.length := by
    rw [List.idxOf_append_of_notMem hx, List.idxOf_append_of_notMem hkept]
    simp
  refine ⟨?_, ?_, ?_⟩
  · rw [List.nodup_append]
    refine ⟨h.nodup, by simp, ?_⟩
    rintro y hy z hz rfl
    exact hkept (List.mem_singleton.mp hz ▸ hy)
  · intro y
    rw [List.mem_append, List.mem_append, h.mem]
  · intro y hy z hz
    rw [List.mem_append, List.mem_singleton] at hy hz
    -- The new element has the last place in both lists.
    rcases hy with hy | rfl
    · obtain ⟨hy1, hy2, hy3, hy4⟩ := hold y hy
      rcases hz with hz | rfl
      · obtain ⟨hz1, hz2, -, -⟩ := hold z hz
        rw [hy1, hy2, hz1, hz2]
        exact h.order y hy z hz
      · rw [hy1, hy2, hnew.1, hnew.2]
        exact ⟨fun _ => hy3, fun _ => hy4⟩
    · rcases hz with hz | rfl
      · obtain ⟨hz1, hz2, hz3, hz4⟩ := hold z hz
        rw [hz1, hz2, hnew.1, hnew.2]
        constructor
        · intro hlt
          omega
        · intro hlt
          omega
      · simp

end FirstOccurrences

/-! ## The components -/

/-- The components so far are the first occurrences among the purls that were added, and the map
knows them. -/
structure Built (b : Builder) (purls : List Bytes) : Prop where
  firsts : FirstOccurrences purls (b.components.map (·.purl))
  index : ∀ p, (b.purlToIndex.lookup p).getD 0 = 0 ↔ p ∉ b.components.map (·.purl)
  refs : ∀ c ∈ b.components, c.bomRef = c.purl

theorem addComponent_built (b : Builder) (purls : List Bytes) (comp : Component) (h : Built b purls)
    (href : comp.bomRef = comp.purl) : Built (addComponent b comp) (purls ++ [comp.purl]) := by
  unfold addComponent
  by_cases hmem : comp.purl ∈ b.components.map (·.purl)
  · -- The purl is known: its position is not 0.
    have hidx : (b.purlToIndex.lookup comp.purl).getD 0 ≠ 0 :=
      fun h0 => (h.index comp.purl).mp h0 hmem
    simp only [hidx, false_and, if_false]
    refine ⟨h.firsts.again _ ((h.firsts.mem _).mp hmem), ?_, h.refs⟩
    intro p
    by_cases hp : p = comp.purl
    · subst hp
      rw [AList.lookup_insert, Option.getD_some]
      exact ⟨fun h0 => absurd h0 hidx, fun hnot => absurd hmem hnot⟩
    · rw [AList.lookup_insert_ne hp]
      exact h.index p
  · have hidx : (b.purlToIndex.lookup comp.purl).getD 0 = 0 := (h.index comp.purl).mpr hmem
    have hhead : b.components = [] ∨ b.components.head?.map (·.purl) ≠ some comp.purl := by
      cases hcomps : b.components with
      | nil => exact Or.inl rfl
      | cons c rest =>
        right
        rw [hcomps, List.map_cons, List.mem_cons, not_or] at hmem
        simpa using Ne.symm hmem.1
    rw [if_pos ⟨hidx, hhead⟩]
    refine ⟨?_, ?_, ?_⟩
    · rw [List.map_append]
      exact h.firsts.fresh _ (fun hin => hmem ((h.firsts.mem _).mpr hin))
    · intro p
      rw [List.map_append, List.mem_append, not_or]
      by_cases hp : p = comp.purl
      · subst hp
        simp [AList.lookup_insert]
      · rw [AList.lookup_insert_ne hp, h.index p]
        simp [hp]
    · intro c hc
      rcases List.mem_append.mp hc with hc | hc
      · exact h.refs c hc
      · rw [List.mem_singleton.mp hc]
        exact href

/-- The purls of a manifest, entry by entry. -/
def purlsOf (m : ParsedManifest) : List Bytes := m.entries.map fun e => toPurl e m.ecosystem

def allPurls (scan : ScanResult) : List Bytes := scan.manifests.flatMap purlsOf

theorem foldl_addEntry_built (m : ParsedManifest) (entries : List ManifestEntry) (b : Builder)
    (purls : List Bytes) (h : Built b purls) :
    Built (entries.foldl (addEntry m) b) (purls ++ entries.map fun e => toPurl e m.ecosystem) := by
  induction entries generalizing b purls with
  | nil => simpa using h
  | cons e rest ih =>
    have hadd := addComponent_built b purls (toComponent e m.ecosystem) h rfl
    have hentry : Built (addEntry m b e) (purls ++ [toPurl e m.ecosystem]) :=
      ⟨hadd.firsts, hadd.index, hadd.refs⟩
    have hrest := ih _ _ hentry
    rw [List.append_assoc, List.singleton_append] at hrest
    exact hrest

theorem foldl_addManifest_built (manifests : List ParsedManifest) (b : Builder) (purls : List Bytes)
    (h : Built b purls) :
    Built (manifests.foldl addManifest b) (purls ++ manifests.flatMap purlsOf) := by
  induction manifests generalizing b purls with
  | nil => simpa using h
  | cons m rest ih =>
    have hrest := ih _ _ (foldl_addEntry_built m m.entries b purls h)
    rw [List.append_assoc] at hrest
    exact hrest

theorem built_empty : Built {} [] := by
  refine ⟨firstOccurrences_nil, ?_, ?_⟩
  · simp
  · simp

theorem toSbomDocument_built (scan : ScanResult) :
    Built (scan.manifests.foldl addManifest {}) (allPurls scan) :=
  foldl_addManifest_built scan.manifests {} [] built_empty

/-! ## The edges -/

/-- The last entry with this bare name: the one the map keeps. -/
def namesake (m : ParsedManifest) (name : Bytes) : Option ManifestEntry :=
  m.entries.reverse.find? fun e => e.name = name

theorem lookup_localNameToPurl (m : ParsedManifest) (name : Bytes) :
    (localNameToPurl m).lookup name = (namesake m name).map fun e => toPurl e m.ecosystem := by
  unfold localNameToPurl namesake
  induction m.entries using List.reverseRecOn with
  | nil => rfl
  | append_singleton entries e ih =>
    rw [List.foldl_append, List.foldl_cons, List.foldl_nil, List.reverse_append,
      List.reverse_singleton, List.singleton_append]
    by_cases hname : name = e.name
    · subst hname
      rw [AList.lookup_insert, List.find?_cons_of_pos (by simp)]
      rfl
    · rw [AList.lookup_insert_ne hname, ih, List.find?_cons_of_neg (by simpa using Ne.symm hname)]

theorem namesake_spec (m : ParsedManifest) (name : Bytes) (e : ManifestEntry)
    (h : namesake m name = some e) : e ∈ m.entries ∧ e.name = name := by
  have hmem := List.mem_of_find?_eq_some h
  have hname := List.find?_some h
  rw [List.mem_reverse] at hmem
  exact ⟨hmem, by simpa using hname⟩

theorem exists_namesake (m : ParsedManifest) (e : ManifestEntry) (he : e ∈ m.entries) :
    ∃ f, namesake m e.name = some f := by
  cases hn : namesake m e.name with
  | some f => exact ⟨f, rfl⟩
  | none =>
    have hnone := List.find?_eq_none.mp hn e (List.mem_reverse.mpr he)
    simp at hnone

theorem foldl_addEntry_dependencies (m : ParsedManifest) (entries : List ManifestEntry)
    (b : Builder) :
    (entries.foldl (addEntry m) b).dependencies =
      b.dependencies ++ entries.filterMap (edgesOf (localNameToPurl m)) := by
  induction entries generalizing b with
  | nil => simp
  | cons e rest ih =>
    have hadd : (addComponent b (toComponent e m.ecosystem)).dependencies = b.dependencies := by
      unfold addComponent
      simp only
      split
      · rfl
      · rfl
    rw [List.foldl_cons, ih]
    simp only [addEntry, hadd, List.append_assoc]
    congr 1
    cases hedges : edgesOf (localNameToPurl m) e with
    | none => simp [hedges]
    | some d => simp [hedges]

theorem toSbomDocument_dependencies (scan : ScanResult) (projectRoot : Bytes) (createdAt : Int) :
    (toSbomDocument scan projectRoot createdAt).dependencies =
      scan.manifests.flatMap fun m => m.entries.filterMap (edgesOf (localNameToPurl m)) := by
  have hfold : ∀ (manifests : List ParsedManifest) (b : Builder),
      (manifests.foldl addManifest b).dependencies =
      b.dependencies ++ manifests.flatMap fun m =>
        m.entries.filterMap (edgesOf (localNameToPurl m)) := by
    intro manifests
    induction manifests with
    | nil => simp
    | cons m rest ih =>
      intro b
      rw [List.foldl_cons, ih, addManifest, foldl_addEntry_dependencies, List.append_assoc,
        List.flatMap_cons]
  exact hfold scan.manifests {}

theorem mem_dependencies (scan : ScanResult) (projectRoot : Bytes) (createdAt : Int)
    (ref target : Bytes) :
    (∃ d ∈ (toSbomDocument scan projectRoot createdAt).dependencies, d.ref = ref ∧
      target ∈ d.dependsOn) ↔
      ∃ m ∈ scan.manifests, ∃ e ∈ m.entries, ∃ name ∈ e.dependsOn, ∃ f g,
        namesake m e.name = some f ∧
        namesake m name = some g ∧ ref = toPurl f m.ecosystem ∧ target = toPurl g m.ecosystem := by
  rw [toSbomDocument_dependencies]
  constructor
  · rintro ⟨d, hd, rfl, htarget⟩
    obtain ⟨m, hm, hd⟩ := List.mem_flatMap.mp hd
    obtain ⟨e, he, hedges⟩ := List.mem_filterMap.mp hd
    unfold edgesOf at hedges
    simp only at hedges
    split at hedges
    · cases hedges
    · rw [Option.some.injEq] at hedges
      rw [← hedges] at htarget ⊢
      obtain ⟨name, hname, hlookup⟩ := List.mem_filterMap.mp htarget
      obtain ⟨f, hf⟩ := exists_namesake m e he
      rw [lookup_localNameToPurl] at hlookup
      obtain ⟨g, hg, rfl⟩ := Option.map_eq_some_iff.mp hlookup
      refine ⟨m, hm, e, he, name, hname, f, g, hf, hg, ?_, rfl⟩
      simp [lookup_localNameToPurl, hf]
  · rintro ⟨m, hm, e, he, name, hname, f, g, hf, hg, rfl, rfl⟩
    have htarget : toPurl g m.ecosystem ∈ e.dependsOn.filterMap (localNameToPurl m).lookup := by
      refine List.mem_filterMap.mpr ⟨name, hname, ?_⟩
      simp [lookup_localNameToPurl, hg]
    -- An entry with no target left gives no line at all.
    have hne : e.dependsOn.filterMap (localNameToPurl m).lookup ≠ [] := List.ne_nil_of_mem htarget
    refine ⟨{ ref := toPurl f m.ecosystem, dependsOn := _ },
      List.mem_flatMap.mpr ⟨m, hm, List.mem_filterMap.mpr ⟨e, he, ?_⟩⟩, rfl, htarget⟩
    unfold edgesOf
    simp only
    rw [if_neg hne, lookup_localNameToPurl, hf]
    rfl

theorem exists_target (scan : ScanResult) (projectRoot : Bytes) (createdAt : Int) (d : Dependency)
    (hd : d ∈ (toSbomDocument scan projectRoot createdAt).dependencies) : ∃ t, t ∈ d.dependsOn := by
  rw [toSbomDocument_dependencies] at hd
  obtain ⟨m, -, hd⟩ := List.mem_flatMap.mp hd
  obtain ⟨e, -, hedges⟩ := List.mem_filterMap.mp hd
  unfold edgesOf at hedges
  simp only at hedges
  split at hedges
  · cases hedges
  · rename_i hne
    rw [Option.some.injEq] at hedges
    rw [← hedges]
    exact List.exists_mem_of_ne_nil _ hne

/-- **The components are exact and closed.** They are the packages of all manifests, once each and
in the order of their first occurrence, and every edge joins two of them. -/
theorem sbom_components_exact (scan : ScanResult) (projectRoot : Bytes) (createdAt : Int) :
    let doc := toSbomDocument scan projectRoot createdAt
    (doc.components.map (·.purl)).Nodup ∧ (∀ c ∈ doc.components, c.bomRef = c.purl) ∧
      (∀ p, p ∈ doc.components.map (·.purl) ↔
        ∃ m ∈ scan.manifests, ∃ e ∈ m.entries, p = toPurl e m.ecosystem) ∧
      (∀ p ∈ allPurls scan, ∀ q ∈ allPurls scan,
        (doc.components.map (·.purl)).idxOf p < (doc.components.map (·.purl)).idxOf q ↔
          (allPurls scan).idxOf p < (allPurls scan).idxOf q) ∧
      ∀ d ∈ doc.dependencies, d.ref ∈ doc.components.map (·.bomRef) ∧
        ∀ t ∈ d.dependsOn, t ∈ doc.components.map (·.bomRef) := by
  intro doc
  have hbuilt := toSbomDocument_built scan
  have hmem : ∀ p, p ∈ doc.components.map (·.purl) ↔
      ∃ m ∈ scan.manifests, ∃ e ∈ m.entries, p = toPurl e m.ecosystem := by
    intro p
    rw [show doc.components = (scan.manifests.foldl addManifest {}).components from rfl,
      hbuilt.firsts.mem]
    simp only [allPurls, purlsOf, List.mem_flatMap, List.mem_map, eq_comm]
  have hrefs : doc.components.map (·.bomRef) = doc.components.map (·.purl) :=
    List.map_congr_left hbuilt.refs
  have hentry : ∀ m ∈ scan.manifests, ∀ name f, namesake m name = some f →
      toPurl f m.ecosystem ∈ doc.components.map (·.bomRef) := by
    intro m hm name f hf
    rw [hrefs, hmem]
    exact ⟨m, hm, f, (namesake_spec m name f hf).1, rfl⟩
  refine ⟨hbuilt.firsts.nodup, hbuilt.refs, hmem, hbuilt.firsts.order, ?_⟩
  intro d hd
  have hedge : ∀ t ∈ d.dependsOn,
      d.ref ∈ doc.components.map (·.bomRef) ∧ t ∈ doc.components.map (·.bomRef) := by
    intro t ht
    obtain ⟨m, hm, e, -, name, -, f, g, hf, hg, href, htarget⟩ :=
      (mem_dependencies scan projectRoot createdAt d.ref t).mp ⟨d, hd, rfl, ht⟩
    rw [href, htarget]
    exact ⟨hentry m hm _ f hf, hentry m hm name g hg⟩
  -- A line has a target, so what is known of the edges holds of its source.
  obtain ⟨t, ht⟩ := exists_target scan projectRoot createdAt d hd
  exact ⟨(hedge t ht).1, fun t ht => (hedge t ht).2⟩

/-! ## Packages and their names -/

/-- What identifies a package. -/
structure Package where
  ecosystem : Ecosystem
  ns : Bytes
  name : Bytes
  version : Bytes
  deriving DecidableEq, Repr

def packageOf (m : ParsedManifest) (e : ManifestEntry) : Package :=
  { ecosystem := m.ecosystem, ns := e.ns, name := e.name, version := e.version }

/-- `ns/name`, or the bare name without a namespace. -/
def fullName (e : ManifestEntry) : Bytes := if e.ns = [] then e.name else e.ns ++ ch '/' :: e.name

theorem purlType_no_slash (ecosystem : Ecosystem) :
    ch '/' ∉ (purlTypeStr (purlTypeFor ecosystem)).lower := by
  cases ecosystem <;> decide

theorem purlType_injective (a b : Ecosystem)
    (h : (purlTypeStr (purlTypeFor a)).lower = (purlTypeStr (purlTypeFor b)).lower) : a = b := by
  revert h
  cases a <;> cases b <;> decide

theorem toPurl_eq_iff (m m' : ParsedManifest) (e f : ManifestEntry) :
    toPurl e m.ecosystem = toPurl f m'.ecosystem ↔ packageOf m e = packageOf m' f := by
  constructor
  · intro h
    obtain ⟨htype, hns, hname, hversion⟩ := toString_injective _ _ (purlType_no_slash m.ecosystem)
      (purlType_no_slash m'.ecosystem) rfl rfl h
    unfold packageOf
    rw [Package.mk.injEq]
    exact ⟨purlType_injective _ _ htype, hns, hname, hversion⟩
  · intro h
    unfold packageOf at h
    rw [Package.mk.injEq] at h
    obtain ⟨heco, hns, hname, hversion⟩ := h
    unfold toPurl
    rw [heco, hns, hname, hversion]

/-! ## The dependency graph -/

/-- A manifest says that `p` depends on `q`: an entry of `p` lists the full name of an entry of
`q`. -/
def Lists (scan : ScanResult) (p q : Package) : Prop :=
  ∃ m ∈ scan.manifests, ∃ e ∈ m.entries, packageOf m e = p ∧
    ∃ g ∈ m.entries, fullName g ∈ e.dependsOn ∧ packageOf m g = q

/-- Bare names lead from `p` to `q`: an entry with the namesake `p` lists a name with the namesake
`q`. -/
def Finds (scan : ScanResult) (p q : Package) : Prop :=
  ∃ m ∈ scan.manifests, ∃ e ∈ m.entries, ∃ name ∈ e.dependsOn, ∃ f g, namesake m e.name = some f ∧
    namesake m name = some g ∧ packageOf m f = p ∧ packageOf m g = q

/-- Bare names find each name that an entry lists, and only what the manifests list. -/
def BareNamesSuffice (scan : ScanResult) : Prop :=
  (∀ m ∈ scan.manifests, ∀ e ∈ m.entries, ∀ name ∈ e.dependsOn,
    (∃ f ∈ m.entries, fullName f = name) →
    ∃ g ∈ m.entries, fullName g = name ∧ Finds scan (packageOf m e) (packageOf m g)) ∧
  ∀ p q, Finds scan p q → Lists scan p q

/-- The graph of the document has each edge that an entry lists, and no other. -/
def FaithfulGraph (scan : ScanResult) (doc : SbomDocument) : Prop :=
  (∀ m ∈ scan.manifests, ∀ e ∈ m.entries, ∀ name ∈ e.dependsOn,
    (∃ f ∈ m.entries, fullName f = name) → ∃ d ∈ doc.dependencies, d.ref = toPurl e m.ecosystem ∧
      ∃ g ∈ m.entries, fullName g = name ∧ toPurl g m.ecosystem ∈ d.dependsOn) ∧
  ∀ d ∈ doc.dependencies, ∀ t ∈ d.dependsOn, ∃ m ∈ scan.manifests, ∃ e ∈ m.entries,
    d.ref = toPurl e m.ecosystem ∧ ∃ name ∈ e.dependsOn, ∃ g ∈ m.entries, fullName g = name ∧
      t = toPurl g m.ecosystem

theorem edge_iff_finds (scan : ScanResult) (projectRoot : Bytes) (createdAt : Int)
    (m : ParsedManifest) (e g : ManifestEntry) :
    (∃ d ∈ (toSbomDocument scan projectRoot createdAt).dependencies, d.ref = toPurl e m.ecosystem ∧
      toPurl g m.ecosystem ∈ d.dependsOn) ↔ Finds scan (packageOf m e) (packageOf m g) := by
  rw [mem_dependencies]
  unfold Finds
  simp only [toPurl_eq_iff m, eq_comm]

theorem found_edge (scan : ScanResult) (projectRoot : Bytes) (createdAt : Int)
    (d : Dependency) (t : Bytes) (hd : d ∈ (toSbomDocument scan projectRoot createdAt).dependencies)
    (ht : t ∈ d.dependsOn) :
    ∃ m f g, Finds scan (packageOf m f) (packageOf m g) ∧ d.ref = toPurl f m.ecosystem ∧
      t = toPurl g m.ecosystem := by
  obtain ⟨m, hm, e, he, name, hname, f, g, hf, hg, href, htarget⟩ :=
    (mem_dependencies scan projectRoot createdAt d.ref t).mp ⟨d, hd, rfl, ht⟩
  exact ⟨m, f, g, ⟨m, hm, e, he, name, hname, f, g, hf, hg, rfl, rfl⟩, href, htarget⟩

theorem faithful_iff_bareNamesSuffice (scan : ScanResult) (projectRoot : Bytes) (createdAt : Int) :
    FaithfulGraph scan (toSbomDocument scan projectRoot createdAt) ↔ BareNamesSuffice scan := by
  constructor
  · rintro ⟨hcomplete, hsound⟩
    constructor
    · intro m hm e he name hname hfull
      obtain ⟨d, hd, href, g, hg, hgname, htarget⟩ := hcomplete m hm e he name hname hfull
      refine ⟨g, hg, hgname, ?_⟩
      exact (edge_iff_finds scan projectRoot createdAt m e g).mp ⟨d, hd, href, htarget⟩
    · rintro p q ⟨m, hm, e, he, name, hname, f, g, hf, hg, rfl, rfl⟩
      obtain ⟨d, hd, href, htarget⟩ := (edge_iff_finds scan projectRoot createdAt m f g).mpr
        ⟨m, hm, e, he, name, hname, f, g, hf, hg, rfl, rfl⟩
      obtain ⟨m', hm', e', he', href', name', hname', g', hg', rfl, htarget'⟩ :=
        hsound d hd _ htarget
      -- Equal purls come from equal packages, not from equal entries.
      rw [href, toPurl_eq_iff] at href'
      rw [toPurl_eq_iff] at htarget'
      exact ⟨m', hm', e', he', href'.symm, g', hg', hname', htarget'.symm⟩
  · rintro ⟨hcomplete, hsound⟩
    constructor
    · intro m hm e he name hname hfull
      obtain ⟨g, hg, hgname, hfinds⟩ := hcomplete m hm e he name hname hfull
      obtain ⟨d, hd, href, htarget⟩ := (edge_iff_finds scan projectRoot createdAt m e g).mpr hfinds
      exact ⟨d, hd, href, g, hg, hgname, htarget⟩
    · intro d hd t ht
      obtain ⟨m, f, g, hfinds, href, htarget⟩ := found_edge scan projectRoot createdAt d t hd ht
      obtain ⟨m', hm', e', he', hpackage, g', hg', hlisted, hpackage'⟩ := hsound _ _ hfinds
      refine ⟨m', hm', e', he', ?_, fullName g', hlisted, g', hg', rfl, ?_⟩
      · rw [href, toPurl_eq_iff]
        exact hpackage.symm
      · rw [htarget, toPurl_eq_iff]
        exact hpackage'.symm

/-! ## Plain names -/

/-- The last entry with this bare name. -/
def LastNamed (m : ParsedManifest) (name : Bytes) (f : ManifestEntry) : Prop :=
  ∃ before after, m.entries = before ++ f :: after ∧ f.name = name ∧ ∀ x ∈ after, x.name ≠ name

/-- The name is that of an entry, with its namespace or without. -/
def Known (m : ParsedManifest) (name : Bytes) : Prop :=
  ∃ f ∈ m.entries, f.name = name ∨ fullName f = name

/-- The bare names of a manifest tell its packages apart, as far as an entry lists one of them. -/
structure PlainNames (m : ParsedManifest) : Prop where
  /-- One version each: after an entry that lists a known name there is no other package with its
  bare name. -/
  single : ∀ e ∈ m.entries, ∀ name ∈ e.dependsOn, Known m name →
    ∀ f, LastNamed m e.name f → packageOf m f = packageOf m e
  /-- A known name that is listed is the bare name of a package without a namespace. -/
  unscoped : ∀ e ∈ m.entries, ∀ name ∈ e.dependsOn, Known m name → ∃ g, LastNamed m name g ∧
    g.ns = []

/-- No entry lists a package that has a namespace by its bare name. -/
def ListsFullNames (m : ParsedManifest) : Prop :=
  ∀ e ∈ m.entries, ∀ name ∈ e.dependsOn, ∀ f ∈ m.entries, f.name = name → f.ns = []

theorem lastNamed_iff (m : ParsedManifest) (name : Bytes) (f : ManifestEntry) :
    LastNamed m name f ↔ namesake m name = some f := by
  unfold LastNamed namesake
  rw [List.find?_eq_some_iff_append]
  constructor
  · rintro ⟨before, after, hsplit, hname, hafter⟩
    refine ⟨by simpa using hname, after.reverse, before.reverse, ?_, ?_⟩
    · simp [hsplit]
    · simpa using hafter
  · rintro ⟨hname, after, before, hsplit, hafter⟩
    refine ⟨before.reverse, after.reverse, ?_, by simpa using hname, ?_⟩
    · rw [← List.reverse_reverse m.entries, hsplit]
      simp
    · simpa using hafter

theorem fullName_unscoped {e : ManifestEntry} (h : e.ns = []) : fullName e = e.name := by
  unfold fullName
  rw [if_pos h]

theorem bareNamesSuffice_of_plain (scan : ScanResult) (h : ∀ m ∈ scan.manifests, PlainNames m) :
    BareNamesSuffice scan := by
  constructor
  · rintro m hm e he name hname ⟨f, hf, hfull⟩
    have hknown : Known m name := ⟨f, hf, Or.inr hfull⟩
    obtain ⟨g, hlast, hns⟩ := (h m hm).unscoped e he name hname hknown
    rw [lastNamed_iff] at hlast
    obtain ⟨hg, hgname⟩ := namesake_spec m name g hlast
    obtain ⟨e', he'⟩ := exists_namesake m e he
    have hown := (h m hm).single e he name hname hknown e' ((lastNamed_iff _ _ _).mpr he')
    exact ⟨g, hg, (fullName_unscoped hns).trans hgname, m, hm, e, he, name, hname, e', g, he',
      hlast, hown, rfl⟩
  · rintro p q ⟨m, hm, e, he, name, hname, f, g, hf, hg, rfl, rfl⟩
    obtain ⟨hgmem, hgname⟩ := namesake_spec m name g hg
    have hknown : Known m name := ⟨g, hgmem, Or.inl hgname⟩
    have hown := (h m hm).single e he name hname hknown f ((lastNamed_iff _ _ _).mpr hf)
    obtain ⟨g', hlast, hns⟩ := (h m hm).unscoped e he name hname hknown
    rw [lastNamed_iff, hg] at hlast
    obtain rfl := Option.some.inj hlast
    refine ⟨m, hm, e, he, hown.symm, g, hgmem, ?_, rfl⟩
    rw [fullName_unscoped hns, hgname]
    exact hname

theorem entry_unique {scan : ScanResult} (hnodup : (allPurls scan).Nodup) {m m' : ParsedManifest}
    {e e' : ManifestEntry} (hm : m ∈ scan.manifests) (hm' : m' ∈ scan.manifests)
    (he : e ∈ m.entries) (he' : e' ∈ m'.entries) (h : packageOf m e = packageOf m' e') :
    m = m' ∧ e = e' := by
  have hpurl := (toPurl_eq_iff m m' e e').mpr h
  unfold allPurls at hnodup
  rw [List.nodup_flatMap] at hnodup
  obtain ⟨heach, hdisjoint⟩ := hnodup
  have hsame : m = m' := by
    by_contra hne
    have hsymm : Std.Symm (Function.onFun List.Disjoint purlsOf) := ⟨fun _ _ hd _ ha hb => hd hb ha⟩
    refine hdisjoint.forall hm hm' hne (List.mem_map_of_mem he) ?_
    rw [hpurl]
    exact List.mem_map_of_mem he'
  subst hsame
  exact ⟨rfl, List.inj_on_of_nodup_map (heach m hm) he he' hpurl⟩

theorem plain_of_bareNamesSuffice {scan : ScanResult} (hnodup : (allPurls scan).Nodup)
    (hfull : ∀ m ∈ scan.manifests, ListsFullNames m) (h : BareNamesSuffice scan) :
    ∀ m ∈ scan.manifests, PlainNames m := by
  intro m hm
  have hfinds : ∀ e ∈ m.entries, ∀ name ∈ e.dependsOn, Known m name →
      namesake m e.name = some e ∧ ∃ g, LastNamed m name g ∧ g.ns = [] := by
    rintro e he name hname ⟨f, hf, hfname⟩
    have hlisted : fullName f = name := by
      rcases hfname with hbare | hlisted
      · rw [fullName_unscoped (hfull m hm e he name hname f hf hbare), hbare]
      · exact hlisted
    obtain ⟨g, hg, hgname, m', hm', e', he', name', hname', f', g', hf', hg', hp, hq⟩ :=
      h.1 m hm e he name hname ⟨f, hf, hlisted⟩
    -- The edge begins at this entry and ends at that one, and not at others of their packages.
    obtain ⟨hfmem, hfbare⟩ := namesake_spec m' e'.name f' hf'
    obtain ⟨hgmem, hgbare⟩ := namesake_spec m' name' g' hg'
    obtain ⟨rfl, rfl⟩ := entry_unique hnodup hm' hm hfmem he hp
    obtain ⟨-, rfl⟩ := entry_unique hnodup hm' hm hgmem hg hq
    have hns := hfull m' hm e' he' name' hname' g' hgmem hgbare
    rw [fullName_unscoped hns] at hgname
    refine ⟨by rw [hfbare]; exact hf', g', (lastNamed_iff _ _ _).mpr ?_, hns⟩
    rw [← hgname, hgbare]
    exact hg'
  refine ⟨?_, fun e he name hname hknown => (hfinds e he name hname hknown).2⟩
  intro e he name hname hknown f hlast
  rw [lastNamed_iff, (hfinds e he name hname hknown).1] at hlast
  rw [Option.some.inj hlast]

/-- **When the dependency graph is faithful.** Plain names are enough for every scan. They are
needed as well where no package stands twice, so that no other entry supplies an edge that was lost,
and where entries list full names. -/
theorem sbom_graph_faithful_plain (scan : ScanResult) (projectRoot : Bytes) (createdAt : Int) :
    ((∀ m ∈ scan.manifests, PlainNames m) →
      FaithfulGraph scan (toSbomDocument scan projectRoot createdAt)) ∧
      ((allPurls scan).Nodup → (∀ m ∈ scan.manifests, ListsFullNames m) →
        (FaithfulGraph scan (toSbomDocument scan projectRoot createdAt) ↔ ∀ m ∈ scan.manifests,
          PlainNames m)) := by
  rw [faithful_iff_bareNamesSuffice]
  exact ⟨bareNamesSuffice_of_plain scan,
    fun hnodup hfull => ⟨plain_of_bareNamesSuffice hnodup hfull, bareNamesSuffice_of_plain scan⟩⟩

/-- An npm lockfile in which one package needs another, both without a scope. -/
def plainManifest : ParsedManifest :=
  { ecosystem := .npm, entries :=
      [{ name := ascii "express", version := ascii "4.19.2", dependsOn := [ascii "body-parser"] },
       { name := ascii "body-parser", version := ascii "1.20.2" }] }

theorem plainManifest_plain : PlainNames plainManifest := by
  constructor
  · intro e he name hname _ f hlast
    rw [lastNamed_iff] at hlast
    simp only [plainManifest, List.mem_cons, List.not_mem_nil, or_false] at he
    rcases he with rfl | rfl
    · rw [show namesake plainManifest (ascii "express") =
        some { name := ascii "express", version := ascii "4.19.2",
               dependsOn := [ascii "body-parser"] } by decide] at hlast
      rw [← Option.some.inj hlast]
    · simp at hname
  · intro e he name hname _
    simp only [plainManifest, List.mem_cons, List.not_mem_nil, or_false] at he
    rcases he with rfl | rfl
    · obtain rfl := List.mem_singleton.mp hname
      exact ⟨_, ⟨[_], [], rfl, rfl, by simp⟩, rfl⟩
    · simp at hname

theorem plain_graph_faithful :
    PlainNames plainManifest ∧
      FaithfulGraph { manifests := [plainManifest] }
        (toSbomDocument { manifests := [plainManifest] } (ascii "/work/app") 0) := by
  refine ⟨plainManifest_plain, (sbom_graph_faithful_plain _ (ascii "/work/app") 0).1 ?_⟩
  intro m hm
  rw [List.mem_singleton.mp hm]
  exact plainManifest_plain

/-- An npm lockfile with two packages of one scope. -/
def scopedScan : ScanResult :=
  { manifests := [{ ecosystem := .npm, entries :=
      [{ name := ascii "core", ns := ascii "@babel", version := ascii "7.24.0",
         dependsOn := [ascii "@babel/parser"] },
       { name := ascii "parser", ns := ascii "@babel", version := ascii "7.24.1" }] }] }

theorem scoped_edge_lost :
    ¬ FaithfulGraph scopedScan (toSbomDocument scopedScan (ascii "/work/app") 0) := by
  rintro ⟨hcomplete, -⟩
  obtain ⟨d, hd, -⟩ := hcomplete _ List.mem_cons_self _ List.mem_cons_self (ascii "@babel/parser")
    List.mem_cons_self ⟨_, List.mem_cons_of_mem _ List.mem_cons_self, by decide⟩
  have hnone : (toSbomDocument scopedScan (ascii "/work/app") 0).dependencies =
      [] := by decide +kernel
  rw [hnone] at hd
  cases hd

end Euxis.Sca
