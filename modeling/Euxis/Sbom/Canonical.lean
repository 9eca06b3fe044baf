import Euxis.Sbom.PurlRoundTrip

/-!
# The canonical text of a purl

Whatever text was accepted, the purl that was read from it is written as a text that is read as the
same purl, up to the qualifiers that the writer leaves out. One turn through reader and writer is a
normal form.
-/

namespace Euxis.Sbom

/-! ## What is read as a qualifier -/

/-- The keys that the reader can put into the map, from a text without a hash. -/
structure ReadKey (k : Bytes) : Prop where
  lower : k.lower = k
  eq : ch '=' ∉ k
  amp : ch '&' ∉ k
  hash : ch '#' ∉ k

theorem parseQualifier_keys (m : AList fun _ : Bytes => Bytes) (kv : Bytes) (hamp : ch '&' ∉ kv)
    (hhash : ch '#' ∉ kv) (h : ∀ k v, m.lookup k = some v → ReadKey k) :
    ∀ k v, (parseQualifier m kv).lookup k = some v → ReadKey k := by
  intro k v hlookup
  unfold parseQualifier at hlookup
  split at hlookup
  · rename_i key value hcut
    by_cases hk : k = key.lower
    · have hin : ∀ b, b ∉ kv → b ∉ key := by
        intro b hb hmem
        rw [Bytes.cut_some _ _ _ _ hcut] at hb
        exact hb (List.mem_append_left _ hmem)
      have heq := Bytes.cut_fst_not_mem _ _ _ _ hcut
      rw [hk]
      exact ⟨Bytes.lower_lower key, Bytes.not_mem_lower _ _ (by decide) heq,
        Bytes.not_mem_lower _ _ (by decide) (hin _ hamp),
        Bytes.not_mem_lower _ _ (by decide) (hin _ hhash)⟩
    · rw [AList.lookup_insert_ne hk] at hlookup
      exact h k v hlookup
  · exact h k v hlookup

theorem parseQualifiers_keys (s : Bytes) (hhash : ch '#' ∉ s) (k v : Bytes)
    (h : (parseQualifiers s).lookup k = some v) : ReadKey k := by
  have hparts := Bytes.mem_splitOn (ch '&') s
  unfold parseQualifiers at h
  revert k v
  apply List.foldlRecOn (motive := fun m => ∀ k v, AList.lookup k m = some v → ReadKey k)
  · intro k v h
    rw [AList.lookup_empty] at h
    cases h
  · intro m hm kv hkv
    exact parseQualifier_keys m kv (fun hb => (hparts kv hkv _ hb).2 rfl)
      (fun hb => hhash (hparts kv hkv _ hb).1) hm

/-- What `parse_purl` can return. -/
structure Accepted (p : Purl) : Prop where
  type : p.type ≠ []
  lower : p.type.lower = p.type
  slash : ch '/' ∉ p.type
  name : p.name ≠ []
  keys : ∀ k v, p.qualifiers.lookup k = some v → ReadKey k

theorem splitOff_fst_not_mem (c : UInt8) (s : Bytes) : c ∉ (splitOff c s).1 := by
  unfold splitOff
  cases hcut : Bytes.cut c s with
  | none => exact Bytes.not_mem_of_cut c s hcut
  | some r => exact Bytes.cut_fst_not_mem c s r.1 r.2 hcut

theorem splitOff_snd_subset (c : UInt8) (s : Bytes) : (splitOff c s).2 ⊆ s := by
  unfold splitOff
  cases hcut : Bytes.cut c s with
  | none => exact List.nil_subset _
  | some r =>
    rw [Bytes.cut_some c s r.1 r.2 hcut]
    intro b hb
    exact List.mem_append_right _ (List.mem_cons_of_mem _ hb)

theorem accepted_of_parsePurl (s : Bytes) (p : Purl) (h : parsePurl s = .ok p) : Accepted p := by
  unfold parsePurl at h
  split at h
  · split at h
    · cases h
    · rename_i type rest hcut
      simp only at h
      split at h
      · cases h
      · rename_i hne
        obtain ⟨htype, hname⟩ := not_or.mp hne
        rw [Except.ok.injEq] at h
        subst h
        have hslash := Bytes.cut_fst_not_mem _ _ _ _ hcut
        refine ⟨htype, Bytes.lower_lower type, Bytes.not_mem_lower _ _ (by decide) hslash, hname,
          ?_⟩
        intro k v hlookup
        refine parseQualifiers_keys _ ?_ k v hlookup
        intro hhash
        exact splitOff_fst_not_mem (ch '#') rest (splitOff_snd_subset (ch '?') _ hhash)
  · cases h

/-! ## What is written -/

/-- Without the qualifiers that the writer passes over. -/
def writtenQualifiers (m : AList fun _ : Bytes => Bytes) : AList fun _ : Bytes => Bytes :=
  ⟨m.entries.filter fun e => ¬ (e.1 = [] ∨ e.2 = []), m.nodupKeys.sublist List.filter_sublist⟩

namespace Purl

def written (p : Purl) : Purl := { p with qualifiers := writtenQualifiers p.qualifiers }

theorem sortedQualifiers_written (p : Purl) : p.written.sortedQualifiers = p.sortedQualifiers := by
  unfold sortedQualifiers
  change ((p.qualifiers.entries.filter fun e => ¬ (e.1 = [] ∨ e.2 = [])).foldl _ []) = _
  rw [List.foldl_filter]
  congr 1
  funext sorted e
  by_cases he : e.1 = [] ∨ e.2 = []
  · simp [he]
  · simp [he]

theorem toString_written (p : Purl) : p.written.toString = p.toString := by
  unfold toString
  rw [sortedQualifiers_written]
  rfl

end Purl

theorem goodQualifier_written (p : Purl) (hp : Accepted p) (k v : Bytes)
    (h : p.written.qualifiers.lookup k = some v) : GoodQualifier k v := by
  have hmem : (⟨k, v⟩ : Sigma fun _ : Bytes => Bytes) ∈ p.written.qualifiers.entries :=
    AList.mem_lookup_iff.mp h
  obtain ⟨hin, hne⟩ := List.mem_filter.mp hmem
  simp only [decide_eq_true_eq, not_or] at hne
  obtain ⟨hlower, heq, hamp, hhash⟩ := hp.keys k v (AList.mem_lookup_iff.mpr hin)
  exact ⟨hne.1, hlower, heq, hamp, hhash, hne.2⟩

/-! ## The order of the qualifiers -/

theorem mem_emplace (k v : Bytes) (m : List (Bytes × Bytes)) (e : Bytes × Bytes)
    (h : e ∈ emplace k v m) : e = (k, v) ∨ e ∈ m := by
  induction m with
  | nil => exact Or.inl (List.mem_singleton.mp h)
  | cons first rest ih =>
    unfold emplace at h
    split at h
    · exact List.mem_cons.mp h
    · split at h
      · exact Or.inr h
      · rcases List.mem_cons.mp h with rfl | h
        · exact Or.inr List.mem_cons_self
        · exact (ih h).imp_right (List.mem_cons_of_mem _)

theorem emplace_sorted (k v : Bytes) (m : List (Bytes × Bytes))
    (h : m.Pairwise fun a b => a.1 < b.1) : (emplace k v m).Pairwise fun a b => a.1 < b.1 := by
  induction m with
  | nil => exact List.pairwise_singleton _ _
  | cons e rest ih =>
    obtain ⟨k', v'⟩ := e
    obtain ⟨hfirst, hrest⟩ := List.pairwise_cons.mp h
    unfold emplace
    split
    · rename_i hlt
      refine List.pairwise_cons.mpr ⟨?_, h⟩
      intro b hb
      rcases List.mem_cons.mp hb with rfl | hb
      · exact hlt
      · exact List.lt_trans hlt (hfirst b hb)
    · rename_i hnlt
      split
      · exact h
      · rename_i hne
        refine List.pairwise_cons.mpr ⟨?_, ih hrest⟩
        intro b hb
        -- The new key goes behind this entry, so it is larger.
        have hgt : k' < k := Std.lt_of_le_of_ne hnlt (Ne.symm hne)
        rcases mem_emplace k v rest b hb with rfl | hb
        · exact hgt
        · exact hfirst b hb

theorem sortedQualifiers_sorted (p : Purl) : p.sortedQualifiers.Pairwise fun a b => a.1 < b.1 := by
  unfold Purl.sortedQualifiers
  apply List.foldlRecOn (motive := fun m : List (Bytes × Bytes) => m.Pairwise fun a b => a.1 < b.1)
  · exact List.Pairwise.nil
  · intro m hm e _
    split
    · exact hm
    · exact emplace_sorted _ _ m hm

theorem sortedQualifiers_congr (p q : Purl)
    (hp : ∀ k v, p.qualifiers.lookup k = some v → GoodQualifier k v)
    (h : ∀ k, q.qualifiers.lookup k = p.qualifiers.lookup k) :
    q.sortedQualifiers = p.sortedQualifiers := by
  have hq : ∀ k v, q.qualifiers.lookup k = some v → GoodQualifier k v := by
    intro k v hlookup
    rw [h] at hlookup
    exact hp k v hlookup
  have hnodup : ∀ m : AList fun _ : Bytes => Bytes, (pairs m).Nodup := by
    intro m
    have hkeys : ((pairs m).map Prod.fst).Nodup := by
      rw [pairs_keys]
      exact m.nodupKeys
    exact hkeys.of_map
  have hpairs : (pairs q.qualifiers).Perm (pairs p.qualifiers) := by
    rw [List.perm_ext_iff_of_nodup (hnodup _) (hnodup _)]
    rintro ⟨k, v⟩
    rw [mem_pairs, mem_pairs, h]
  have hperm : q.sortedQualifiers.Perm p.sortedQualifiers :=
    (sortedQualifiers_perm q hq).trans (hpairs.trans (sortedQualifiers_perm p hp).symm)
  refine hperm.eq_of_pairwise ?_ (sortedQualifiers_sorted q) (sortedQualifiers_sorted p)
  intro a b _ _ hab hba
  exact absurd (List.lt_trans hab hba) (List.lt_irrefl _)

theorem SamePurl.toString_eq {p q : Purl} (h : SamePurl p q)
    (hp : ∀ k v, p.qualifiers.lookup k = some v → GoodQualifier k v) : q.toString = p.toString := by
  unfold Purl.toString
  rw [sortedQualifiers_congr p q hp h.qualifiers, h.type, h.ns, h.name, h.version, h.subpath]

/-! ## The normal form -/

/-- **Canonical purls.** The text of a purl that was read is accepted, and its purl has the same
text. -/
theorem parsePurl_toString (s : Bytes) (p : Purl) (h : parsePurl s = .ok p) :
    ∃ q, parsePurl p.toString = .ok q ∧ q.toString = p.toString := by
  have hp := accepted_of_parsePurl s p h
  have hgood := goodQualifier_written p hp
  obtain ⟨q, hparse, hsame⟩ := purl_round_trip p.written hp.type hp.lower hp.slash hp.name hgood
  have htext := hsame.toString_eq hgood
  rw [Purl.toString_written] at hparse htext
  exact ⟨q, hparse, htext⟩

/-- A text with slashes to drop, a capital type, a stray percent sign, an escaped slash and empty
qualifiers. -/
def untidyPurl : Bytes := ascii "pkg://NPM/a%2fb//%zz%41@?Arch=&os=x%26y&OS=z&=v#/s%2f%"

theorem untidyPurl_canonical :
    ∃ p, parsePurl untidyPurl = .ok p ∧ ∃ q, parsePurl p.toString = .ok q ∧
      q.toString = p.toString := by
  cases hp : parsePurl untidyPurl with
  | ok p => exact ⟨p, rfl, parsePurl_toString untidyPurl p hp⟩
  | error e =>
    have hok : (parsePurl untidyPurl).toBool = true := by decide
    rw [hp] at hok
    cases hok

end Euxis.Sbom
