import Euxis.Sbom.Purl

/-!
# Reading a purl back

An encoded segment holds unreserved bytes and `%` only, so the separators that the writer puts
between the segments are the ones the reader finds.
-/

namespace Euxis.Sbom

/-! ## Segments -/

theorem hexChar_unreserved : ∀ v < 16, isUnreserved (hexChar v) = true := by
  decide

theorem fromHex_hexChar : ∀ v < 16, fromHex (hexChar v) = some v := by
  decide

theorem unreserved_ne_percent (c : UInt8) (h : isUnreserved c = true) : c ≠ ch '%' := by
  rintro rfl
  exact absurd h (by decide)

theorem decode_cons (c : UInt8) (rest : Bytes) (h : c ≠ ch '%') :
    percentDecodeSegment (c :: rest) = c :: percentDecodeSegment rest := by
  match rest with
  | [] => simp [percentDecodeSegment]
  | [a] => simp [percentDecodeSegment]
  | a :: b :: more =>
    conv_lhs => unfold percentDecodeSegment
    rw [if_neg h]

theorem decode_escaped (c : UInt8) (rest : Bytes) :
    percentDecodeSegment (ch '%' :: hexChar (c.toNat / 16) :: hexChar (c.toNat % 16) :: rest) =
      c :: percentDecodeSegment rest := by
  have hc := c.toNat_lt
  rw [percentDecodeSegment, if_pos rfl, fromHex_hexChar _ (by omega), fromHex_hexChar _ (by omega)]
  have hsum : c.toNat / 16 * 16 + c.toNat % 16 = c.toNat := by omega
  simp [hsum]

theorem decode_encodeByte (c : UInt8) (rest : Bytes) :
    percentDecodeSegment (percentEncodeByte c ++ rest) = c :: percentDecodeSegment rest := by
  unfold percentEncodeByte
  split
  · rename_i h
    exact decode_cons c rest (unreserved_ne_percent c h)
  · exact decode_escaped c rest

theorem decode_encode_append (s rest : Bytes) :
    percentDecodeSegment (percentEncodeSegment s ++ rest) = s ++ percentDecodeSegment rest := by
  induction s with
  | nil => rfl
  | cons c s ih =>
    have hcons : percentEncodeSegment (c :: s) = percentEncodeByte c ++ percentEncodeSegment s :=
      rfl
    rw [hcons, List.append_assoc, decode_encodeByte, ih, List.cons_append]

theorem decode_encode (s : Bytes) : percentDecodeSegment (percentEncodeSegment s) = s := by
  have h := decode_encode_append s []
  simpa [percentDecodeSegment] using h

theorem mem_encode (s : Bytes) (b : UInt8) (h : b ∈ percentEncodeSegment s) :
    isUnreserved b = true ∨ b = ch '%' := by
  obtain ⟨c, -, hb⟩ := List.mem_flatMap.mp h
  have hc := c.toNat_lt
  unfold percentEncodeByte at hb
  split at hb
  · rename_i hu
    rw [List.mem_singleton] at hb
    rw [hb]
    exact Or.inl hu
  · simp only [List.mem_cons, List.not_mem_nil, or_false] at hb
    rcases hb with rfl | rfl | rfl
    · exact Or.inr rfl
    · exact Or.inl (hexChar_unreserved _ (by omega))
    · exact Or.inl (hexChar_unreserved _ (by omega))

/-- A byte that the writer puts between segments. -/
def Separator (b : UInt8) : Prop := isUnreserved b = false ∧ b ≠ ch '%'

theorem separator_not_mem (s : Bytes) (b : UInt8) (h : Separator b) :
    b ∉ percentEncodeSegment s := by
  intro hb
  rcases mem_encode s b hb with hu | hp
  · rw [h.1] at hu
    cases hu
  · exact h.2 hp

/-! ## Paths -/

theorem separator_slash : Separator (ch '/') := by
  unfold Separator
  decide

theorem decodePath_encodePath (s : Bytes) : decodePath (encodePath s) = s := by
  unfold decodePath encodePath
  rw [Bytes.splitOn_join, List.map_map]
  · have hid : percentDecodeSegment ∘ percentEncodeSegment = id := funext decode_encode
    rw [hid, List.map_id, Bytes.join_splitOn]
  · intro x hx
    obtain ⟨y, -, rfl⟩ := List.mem_map.mp hx
    exact separator_not_mem y _ separator_slash
  · simp [List.splitOn_ne_nil]

theorem decode_join (xs : List Bytes) :
    percentDecodeSegment (Bytes.join (ch '/') (xs.map percentEncodeSegment)) =
      Bytes.join (ch '/') xs := by
  induction xs with
  | nil => rfl
  | cons x ys ih =>
    cases ys with
    | nil => simp [decode_encode]
    | cons y zs =>
      rw [List.map_cons, List.map_cons, Bytes.join_cons_cons, decode_encode_append,
        decode_cons _ _ (by decide), ← List.map_cons, ih, Bytes.join_cons_cons]

theorem decode_encodePath (s : Bytes) : percentDecodeSegment (encodePath s) = s := by
  unfold encodePath
  rw [decode_join, Bytes.join_splitOn]

theorem separator_not_mem_path (s : Bytes) (b : UInt8) (h : Separator b) (hb : b ≠ ch '/') :
    b ∉ encodePath s := by
  intro hmem
  rcases Bytes.mem_join _ b _ hmem with hslash | ⟨x, hx, hin⟩
  · exact hb hslash
  · obtain ⟨y, -, rfl⟩ := List.mem_map.mp hx
    exact separator_not_mem y b h hin

/-! ## Qualifiers -/

theorem emplace_perm (k v : Bytes) (m : List (Bytes × Bytes)) (h : k ∉ m.map Prod.fst) :
    (emplace k v m).Perm ((k, v) :: m) := by
  induction m with
  | nil => exact List.Perm.refl _
  | cons e rest ih =>
    obtain ⟨k', v'⟩ := e
    rw [List.map_cons, List.mem_cons, not_or] at h
    unfold emplace
    split
    · exact List.Perm.refl _
    · rw [if_neg h.1]
      exact (List.Perm.cons _ (ih h.2)).trans (List.Perm.swap _ _ _)

theorem foldl_emplace_perm (xs sorted : List (Bytes × Bytes))
    (h : (xs ++ sorted).map Prod.fst |>.Nodup) :
    (xs.foldl (fun sorted e => emplace e.1 e.2 sorted) sorted).Perm (xs ++ sorted) := by
  induction xs generalizing sorted with
  | nil => exact List.Perm.refl _
  | cons e rest ih =>
    rw [List.cons_append, List.map_cons, List.nodup_cons] at h
    have hfresh : e.1 ∉ sorted.map Prod.fst := by
      intro hmem
      apply h.1
      rw [List.map_append]
      exact List.mem_append_right _ hmem
    have hperm := emplace_perm e.1 e.2 sorted hfresh
    have hnodup : ((rest ++ emplace e.1 e.2 sorted).map Prod.fst).Nodup := by
      have hp : (rest ++ emplace e.1 e.2 sorted).Perm (e :: (rest ++ sorted)) :=
        (List.Perm.append_left rest hperm).trans List.perm_middle
      rw [(hp.map Prod.fst).nodup_iff, List.map_cons, List.nodup_cons]
      exact h
    rw [List.foldl_cons]
    exact (ih _ hnodup).trans ((List.Perm.append_left rest hperm).trans List.perm_middle)

/-- The pairs of the map, in its order. -/
def pairs (m : AList fun _ : Bytes => Bytes) : List (Bytes × Bytes) :=
  m.entries.map fun e => (e.1, e.2)

theorem mem_pairs (m : AList fun _ : Bytes => Bytes) (k v : Bytes) :
    (k, v) ∈ pairs m ↔ m.lookup k = some v := by
  unfold pairs
  rw [← Option.mem_def, AList.mem_lookup_iff, List.mem_map]
  constructor
  · rintro ⟨e, he, heq⟩
    obtain ⟨rfl, rfl⟩ := Prod.mk.inj heq
    exact he
  · intro h
    exact ⟨_, h, rfl⟩

theorem pairs_keys (m : AList fun _ : Bytes => Bytes) : (pairs m).map Prod.fst = m.keys := by
  unfold pairs AList.keys List.keys
  rw [List.map_map]
  rfl

/-- What the caller keeps to in a qualifier. -/
structure GoodQualifier (k v : Bytes) : Prop where
  key : k ≠ []
  lower : k.lower = k
  eq : ch '=' ∉ k
  amp : ch '&' ∉ k
  hash : ch '#' ∉ k
  value : v ≠ []

theorem sortedQualifiers_perm (p : Purl)
    (h : ∀ k v, p.qualifiers.lookup k = some v → GoodQualifier k v) :
    p.sortedQualifiers.Perm (pairs p.qualifiers) := by
  have hfold : p.sortedQualifiers =
      (pairs p.qualifiers).foldl (fun sorted e => emplace e.1 e.2 sorted) [] := by
    unfold Purl.sortedQualifiers pairs
    rw [List.foldl_map]
    apply List.foldl_ext
    intro sorted e he
    have hgood := h e.1 e.2 (AList.mem_lookup_iff.mpr he)
    rw [if_neg (not_or.mpr ⟨hgood.key, hgood.value⟩), hgood.lower]
  rw [hfold]
  have hperm := foldl_emplace_perm (pairs p.qualifiers) [] (by
    rw [List.append_nil, pairs_keys]
    exact p.qualifiers.nodupKeys)
  rwa [List.append_nil] at hperm

theorem parseQualifier_text (m : AList fun _ : Bytes => Bytes) (k v : Bytes)
    (h : GoodQualifier k v) : parseQualifier m (Purl.qualifierText (k, v)) = m.insert k v := by
  unfold parseQualifier Purl.qualifierText
  rw [Bytes.cut_append _ _ _ h.eq]
  simp only
  rw [h.lower, decode_encode]

theorem lookup_foldl_insert (xs : List (Bytes × Bytes)) (m : AList fun _ : Bytes => Bytes)
    (hnodup : (xs.map Prod.fst).Nodup) (k v : Bytes) :
    (xs.foldl (fun m e => m.insert e.1 e.2) m).lookup k = some v ↔
      (k, v) ∈ xs ∨ (k ∉ xs.map Prod.fst ∧ m.lookup k = some v) := by
  induction xs generalizing m with
  | nil => simp
  | cons e rest ih =>
    obtain ⟨k', v'⟩ := e
    rw [List.map_cons, List.nodup_cons] at hnodup
    rw [List.foldl_cons, ih _ hnodup.2]
    by_cases hk : k = k'
    · subst hk
      have hnot : ∀ w, (k, w) ∉ rest := fun w hw => hnodup.1 (List.mem_map.mpr ⟨(k, w), hw, rfl⟩)
      simp only [AList.lookup_insert, hnodup.1, hnot, false_or, not_false_eq_true, true_and,
        List.mem_cons,
        Prod.mk.injEq, or_false, List.map_cons, not_true, false_and, Option.some.injEq]
      exact eq_comm
    · rw [AList.lookup_insert_ne hk]
      simp [hk]

theorem separator_others : Separator (ch '@') ∧ Separator (ch '?') ∧ Separator (ch '#') ∧
    Separator (ch '&') := by
  unfold Separator
  decide

theorem parseQualifiers_text (p : Purl)
    (h : ∀ k v, p.qualifiers.lookup k = some v → GoodQualifier k v) (hne : p.sortedQualifiers ≠ [])
    (k : Bytes) :
    (parseQualifiers (Bytes.join (ch '&') (p.sortedQualifiers.map Purl.qualifierText))).lookup k =
      p.qualifiers.lookup k := by
  have hperm := sortedQualifiers_perm p h
  have hgood : ∀ e ∈ p.sortedQualifiers, GoodQualifier e.1 e.2 := by
    intro e he
    exact h e.1 e.2 ((mem_pairs _ _ _).mp (hperm.mem_iff.mp he))
  have hnodup : (p.sortedQualifiers.map Prod.fst).Nodup := by
    rw [(hperm.map Prod.fst).nodup_iff, pairs_keys]
    exact p.qualifiers.nodupKeys
  unfold parseQualifiers
  rw [Bytes.splitOn_join, List.foldl_map]
  -- No key comes twice, so each insert meets a map that does not have it.
  · have hfold : p.sortedQualifiers.foldl (fun m e => parseQualifier m (Purl.qualifierText e)) ∅ =
        p.sortedQualifiers.foldl (fun m e => m.insert e.1 e.2) ∅ := by
      apply List.foldl_ext
      intro m e he
      exact parseQualifier_text m e.1 e.2 (hgood e he)
    rw [hfold]
    apply Option.ext
    intro v
    rw [lookup_foldl_insert _ _ hnodup, hperm.mem_iff, mem_pairs]
    simp
  · intro x hx
    obtain ⟨e, he, rfl⟩ := List.mem_map.mp hx
    unfold Purl.qualifierText
    rw [List.mem_append, List.mem_cons, not_or, not_or]
    exact ⟨(hgood e he).amp, by decide, separator_not_mem _ _ separator_others.2.2.2⟩
  · simpa using hne

/-! ## Separators -/

theorem splitOff_optional (c : UInt8) (x y : Bytes) (p : Prop) [Decidable p] (h : c ∉ x) :
    splitOff c (x ++ if p then [] else c :: y) = (x, if p then [] else y) := by
  unfold splitOff
  split
  · rw [List.append_nil, Bytes.cut_of_not_mem c x h]
    rfl
  · rw [Bytes.cut_append c x y h]
    rfl

theorem splitOffLast_optional (c : UInt8) (x y : Bytes) (p : Prop) [Decidable p] (hx : c ∉ x)
    (hy : c ∉ y) : splitOffLast c (x ++ if p then [] else c :: y) = (x, if p then [] else y) := by
  unfold splitOffLast
  split
  · rw [List.append_nil, Bytes.cutLast_of_not_mem c x hx]
    rfl
  · rw [Bytes.cutLast_append c x y hy]
    rfl

namespace Purl

/-- Namespace and name as the writer puts them. -/
def fullName (p : Purl) : Bytes :=
  (if p.ns = [] then [] else encodePath p.ns ++ [ch '/']) ++ percentEncodeSegment p.name

theorem separator_not_mem_fullName (p : Purl) (b : UInt8) (h : Separator b) (hb : b ≠ ch '/') :
    b ∉ p.fullName := by
  unfold fullName
  rw [List.mem_append, not_or]
  refine ⟨?_, separator_not_mem p.name b h⟩
  split
  · simp
  · rw [List.mem_append, List.mem_singleton, not_or]
    exact ⟨separator_not_mem_path p.ns b h hb, hb⟩

theorem splitName_fullName (p : Purl) : splitName p.fullName = (p.ns, p.name) := by
  have hname := separator_not_mem p.name _ separator_slash
  unfold splitName fullName
  split_ifs with hns
  · rw [List.nil_append, Bytes.cutLast_of_not_mem _ _ hname, hns]
    simp only
    rw [decode_encode]
  · rw [List.append_assoc, List.singleton_append, Bytes.cutLast_append _ _ _ hname]
    simp only
    rw [decodePath_encodePath, decode_encode]

/-- The text of the qualifiers, without the question mark. -/
def qualifiersText (p : Purl) : Bytes :=
  if p.sortedQualifiers = [] then [] else Bytes.join (ch '&') (p.sortedQualifiers.map qualifierText)

/-- The text before the subpath. -/
def front (p : Purl) : Bytes :=
  (p.fullName ++ if p.version = [] then [] else ch '@' :: percentEncodeSegment p.version) ++
    if p.sortedQualifiers = [] then []
      else ch '?' :: Bytes.join (ch '&') (p.sortedQualifiers.map qualifierText)

theorem toString_eq (p : Purl) :
    p.toString = ascii "pkg:" ++ (p.type.lower ++ ch '/' ::
      (p.front ++ if p.subpath = [] then [] else ch '#' :: encodePath p.subpath)) := by
  simp [toString, front, fullName]

theorem separator_not_mem_named (p : Purl) (b : UInt8) (h : Separator b) (hslash : b ≠ ch '/')
    (hat : b ≠ ch '@') :
    b ∉ p.fullName ++ if p.version = [] then [] else ch '@' :: percentEncodeSegment p.version := by
  rw [List.mem_append, not_or]
  refine ⟨separator_not_mem_fullName p b h hslash, ?_⟩
  split
  · simp
  · rw [List.mem_cons, not_or]
    exact ⟨hat, separator_not_mem p.version b h⟩

theorem hash_not_mem_front (p : Purl)
    (h : ∀ k v, p.qualifiers.lookup k = some v → GoodQualifier k v) : ch '#' ∉ p.front := by
  have hsep := separator_others.2.2.1
  unfold front
  rw [List.mem_append, not_or]
  refine ⟨separator_not_mem_named p _ hsep (by decide) (by decide), ?_⟩
  split
  · simp
  · rw [List.mem_cons, not_or]
    refine ⟨by decide, ?_⟩
    intro hmem
    rcases Bytes.mem_join _ _ _ hmem with hamp | ⟨x, hx, hin⟩
    · exact absurd hamp (by decide)
    · obtain ⟨e, he, rfl⟩ := List.mem_map.mp hx
      have hgood := h e.1 e.2 ((mem_pairs _ _ _).mp ((sortedQualifiers_perm p h).mem_iff.mp he))
      rw [qualifierText, List.mem_append, List.mem_cons] at hin
      rcases hin with hin | hin | hin
      · exact hgood.hash hin
      · exact absurd hin (by decide)
      · exact separator_not_mem _ _ hsep hin

theorem parseRest_text (p : Purl) (h : ∀ k v, p.qualifiers.lookup k = some v → GoodQualifier k v)
    (type : Bytes) :
    parseRest type (p.front ++ if p.subpath = [] then [] else ch '#' :: encodePath p.subpath) =
      { type := type.lower, ns := p.ns, name := p.name, version := p.version,
        qualifiers := parseQualifiers p.qualifiersText, subpath := p.subpath } := by
  have hversion : percentDecodeSegment (if p.version = [] then []
      else percentEncodeSegment p.version) = p.version := by
    split
    · rename_i hv
      rw [hv]
      rfl
    · exact decode_encode p.version
  have hsubpath : percentDecodeSegment (if p.subpath = [] then [] else encodePath p.subpath) =
      p.subpath := by
    split
    · rename_i hs
      rw [hs]
      rfl
    · exact decode_encodePath p.subpath
  -- The cuts in the order of the source: subpath, qualifiers, version, name.
  unfold parseRest
  rw [splitOff_optional _ _ _ _ (hash_not_mem_front p h)]
  simp only
  unfold front
  rw [splitOff_optional _ _ _ _
    (separator_not_mem_named p _ separator_others.2.1 (by decide) (by decide))]
  simp only
  rw [splitOffLast_optional _ _ _ _ (separator_not_mem_fullName p _ separator_others.1 (by decide))
    (separator_not_mem p.version _ separator_others.1)]
  simp only
  rw [splitName_fullName, hversion, hsubpath]
  rfl

end Purl

/-! ## The round trip -/

/-- The purl that is read has every field of the one that was written. -/
structure SamePurl (p q : Purl) : Prop where
  type : q.type = p.type
  ns : q.ns = p.ns
  name : q.name = p.name
  version : q.version = p.version
  qualifiers : ∀ k, q.qualifiers.lookup k = p.qualifiers.lookup k
  subpath : q.subpath = p.subpath

theorem parseQualifiers_qualifiersText (p : Purl)
    (h : ∀ k v, p.qualifiers.lookup k = some v → GoodQualifier k v) (k : Bytes) :
    (parseQualifiers p.qualifiersText).lookup k = p.qualifiers.lookup k := by
  unfold Purl.qualifiersText
  split
  · rename_i hempty
    have hpairs : pairs p.qualifiers = [] := by
      have hperm := sortedQualifiers_perm p h
      rw [hempty] at hperm
      exact List.nil_perm.mp hperm
    apply Option.ext
    intro v
    rw [← mem_pairs p.qualifiers, hpairs]
    simp [parseQualifiers, parseQualifier, Bytes.cut]
  · rename_i hne
    exact parseQualifiers_text p h hne k

theorem parsePurl_scheme (type rest : Bytes) (hne : type ≠ []) (hslash : ch '/' ∉ type) :
    parsePurl (ascii "pkg:" ++ (type ++ ch '/' :: rest)) =
      if (parseRest type rest).type = [] ∨ (parseRest type rest).name = [] then
        .error { message := ascii "purl type and name must be non-empty", position := 0 }
      else .ok (parseRest type rest) := by
  have hprefix : (ascii "pkg:").isPrefixOf (ascii "pkg:" ++ (type ++ ch '/' :: rest)) = true := by
    rw [List.isPrefixOf_iff_prefix]
    exact List.prefix_append _ _
  have hdrop : (ascii "pkg:" ++ (type ++ ch '/' :: rest)).drop 4 = type ++ ch '/' :: rest :=
    List.drop_left' rfl
  have hlead : (type ++ ch '/' :: rest).dropWhile (· = ch '/') = type ++ ch '/' :: rest := by
    cases type with
    | nil => exact absurd rfl hne
    | cons b more =>
      rw [List.mem_cons, not_or] at hslash
      rw [List.cons_append, List.dropWhile_cons_of_neg]
      simpa using Ne.symm hslash.1
  unfold parsePurl
  rw [if_pos hprefix, hdrop, hlead, Bytes.cut_append _ _ _ hslash]

/-- **The purl round trip.** What `to_string` writes, `parse_purl` reads back in every field. -/
theorem purl_round_trip (p : Purl) (htype : p.type ≠ []) (hlower : p.type.lower = p.type)
    (hslash : ch '/' ∉ p.type) (hname : p.name ≠ [])
    (hqual : ∀ k v, p.qualifiers.lookup k = some v → GoodQualifier k v) :
    ∃ q, parsePurl p.toString = .ok q ∧ SamePurl p q := by
  let q : Purl :=
    { type := p.type.lower, ns := p.ns, name := p.name, version := p.version,
      qualifiers := parseQualifiers p.qualifiersText, subpath := p.subpath }
  have hparse := Purl.parseRest_text p hqual p.type
  refine ⟨q, ?_, ⟨hlower, rfl, rfl, rfl, parseQualifiers_qualifiersText p hqual, rfl⟩⟩
  rw [Purl.toString_eq, hlower, parsePurl_scheme _ _ htype hslash, hparse, if_neg]
  rw [hlower]
  exact not_or.mpr ⟨htype, hname⟩

theorem toString_injective (p q : Purl) (hp : ch '/' ∉ p.type.lower) (hq : ch '/' ∉ q.type.lower)
    (hpq : p.qualifiers = ∅) (hqq : q.qualifiers = ∅) (h : p.toString = q.toString) :
    p.type.lower = q.type.lower ∧ p.ns = q.ns ∧ p.name = q.name ∧ p.version = q.version := by
  have hgood : ∀ r : Purl, r.qualifiers = ∅ → ∀ k v, r.qualifiers.lookup k = some v →
      GoodQualifier k v := by
    intro r hr k v hkv
    rw [hr, AList.lookup_empty] at hkv
    cases hkv
  rw [Purl.toString_eq, Purl.toString_eq] at h
  obtain ⟨htype, hrest⟩ := Bytes.append_cons_inj hp hq (List.append_cancel_left h)
  have hparse := congrArg (parseRest []) hrest
  rw [Purl.parseRest_text p (hgood p hpq), Purl.parseRest_text q (hgood q hqq), Purl.mk.injEq]
    at hparse
  exact ⟨htype, hparse.2.1, hparse.2.2.1, hparse.2.2.2.1⟩

/-- A purl with every field, and with separators in most of them. -/
def scopedPurl : Purl :=
  { type := ascii "npm", ns := ascii "@scope/a//b", name := ascii "na/me@1",
    version := ascii "1.0?x#y"
    qualifiers := (AList.singleton (ascii "os/arch?") (ascii "a&b=c")).insert (ascii "arch")
      (ascii "x86 64%")
    subpath := ascii "/src/%41" }

theorem purl_round_trip_scoped :
    ∃ q, parsePurl scopedPurl.toString = .ok q ∧ SamePurl scopedPurl q := by
  refine purl_round_trip scopedPurl (by decide) (by decide) (by decide) (by decide) ?_
  intro k v h
  have hmem : (⟨k, v⟩ : Sigma fun _ : Bytes => Bytes) ∈ scopedPurl.qualifiers.entries :=
    AList.mem_lookup_iff.mp h
  have hentries : scopedPurl.qualifiers.entries =
      [⟨ascii "arch", ascii "x86 64%"⟩, ⟨ascii "os/arch?", ascii "a&b=c"⟩] := by decide
  rw [hentries] at hmem
  simp only [List.mem_cons, List.not_mem_nil, or_false] at hmem
  rcases hmem with h | h
  · cases h
    exact ⟨by decide, by decide, by decide, by decide, by decide, by decide⟩
  · cases h
    exact ⟨by decide, by decide, by decide, by decide, by decide, by decide⟩

end Euxis.Sbom
