import Euxis.Bytes
import Euxis.Prefixes

/-!
# Suggestions while typing

`apps/etx/src/ghost_text.cpp`: how often each text was sent is counted in a sorted map, and a
suggestion is the text sent most often that goes on where the typed one ends. The counts are `int`,
and one that would go over the bound is an overflow, which the language leaves undefined.
-/

namespace Euxis.Etx.GhostText

def intMax : Int := 2147483647

def InInt (n : Int) : Prop := -2147483648 ≤ n ∧ n ≤ intMax

/-- `std::flat_map` has its keys in order. -/
structure Engine where
  freq : List (Bytes × Int)
  sorted : Prefixes.Sorted freq
  inInt : ∀ text n, freq.lookup text = some n → InInt n

theorem inInt_nil (text : Bytes) (n : Int) (h : ([] : List (Bytes × Int)).lookup text = some n) :
    InInt n := by
  cases h

def Engine.empty : Engine where
  freq := []
  sorted := List.Pairwise.nil
  inInt := inInt_nil

/-- The count of a text, 0 for one that the map does not have. -/
def Engine.count (e : Engine) (text : Bytes) : Int := (e.freq.lookup text).getD 0

theorem Engine.count_inInt (e : Engine) (text : Bytes) : InInt (e.count text) := by
  unfold Engine.count
  cases h : e.freq.lookup text with
  | none => exact ⟨by decide, by decide⟩
  | some n => exact e.inInt text n h

theorem Engine.inInt_record (e : Engine) (text : Bytes) (h : e.count text < intMax)
    (k : Bytes) (n : Int)
    (hk : (Prefixes.update text (fun n => n.getD 0 + 1) e.freq).lookup k = some n) : InInt n := by
  rw [Prefixes.lookup_update e.sorted] at hk
  split at hk
  · have hold := (e.count_inInt text).1
    have hn := Option.some.inj hk
    unfold Engine.count at h hold
    unfold InInt
    omega
  · exact e.inInt k n hk

/-- `freq_[text]++`; nothing where the count overflows. -/
def Engine.record (e : Engine) (text : Bytes) : Option Engine :=
  if text = [] then some e
  else if h : e.count text < intMax then
    some {
      freq := Prefixes.update text (fun n => n.getD 0 + 1) e.freq
      sorted := e.sorted.update text fun n => n.getD 0 + 1
      inInt := e.inInt_record text h }
  else none

/-- The loop of `suggest` over the entries from the lower bound on. -/
def scan (typed : Bytes) : List (Bytes × Int) → Option Bytes → Int → Option Bytes
  | [], best, _ => best
  | (key, count) :: rest, best, bestFreq =>
    if key.length < typed.length ∨ key.take typed.length ≠ typed then best
    else if key = typed then scan typed rest best bestFreq
    else if count > bestFreq then scan typed rest (some key) count
    else scan typed rest best bestFreq

def Engine.suggest (e : Engine) (typed : Bytes) : Option Bytes :=
  if typed = [] then none else scan typed (Prefixes.lowerBound typed e.freq) none 0

/-! ## The loop -/

/-- The first of the entries with the highest count. -/
def pick : List (Bytes × Int) → Option Bytes → Int → Option Bytes
  | [], best, _ => best
  | (key, count) :: rest, best, bestFreq =>
    if count > bestFreq then pick rest (some key) count else pick rest best bestFreq

theorem beginsWith_iff (typed key : Bytes) :
    (key.length < typed.length ∨ key.take typed.length ≠ typed) ↔ ¬ typed <+: key := by
  rw [List.prefix_iff_eq_take]
  constructor
  · rintro (h | h) heq
    · have := congrArg List.length heq
      rw [List.length_take] at this
      omega
    · exact h heq.symm
  · intro h
    exact Or.inr fun heq => h heq.symm

theorem scan_eq (typed : Bytes) (l : List (Bytes × Int)) : ∀ best bestFreq,
    scan typed l best bestFreq = pick ((l.takeWhile fun e => typed <+: e.1).filter fun e => e.1 ≠
      typed) best bestFreq := by
  induction l with
  | nil => intro best bestFreq; rfl
  | cons e rest ih =>
    intro best bestFreq
    unfold scan
    by_cases hp : typed <+: e.1
    · rw [if_neg fun h => (beginsWith_iff typed e.1).mp h hp,
        List.takeWhile_cons_of_pos (by simpa using hp)]
      by_cases heq : e.1 = typed
      · rw [if_pos heq, List.filter_cons_of_neg (by simpa using heq), ih]
      · rw [if_neg heq, List.filter_cons_of_pos (by simpa using heq), ih, ih]
        rfl
    · rw [if_pos ((beginsWith_iff typed e.1).mpr hp),
        List.takeWhile_cons_of_neg (by simpa using hp)]
      rfl

theorem pick_cases (l : List (Bytes × Int)) : ∀ best bestFreq,
    (pick l best bestFreq = best ∧ ∀ e ∈ l, e.2 ≤ bestFreq) ∨
      ∃ before e after, l = before ++ e :: after ∧ pick l best bestFreq = some e.1 ∧
        bestFreq < e.2 ∧ (∀ b ∈ before, b.2 < e.2) ∧ ∀ a ∈ after, a.2 ≤ e.2 := by
  induction l with
  | nil => exact fun best bestFreq => Or.inl ⟨rfl, fun e he => absurd he List.not_mem_nil⟩
  | cons first rest ih =>
    intro best bestFreq
    unfold pick
    split
    -- A tie does not replace the best, so the first of the highest counts stays.
    · rename_i hgt
      rcases ih (some first.1) first.2 with ⟨hpick, hle⟩ | ⟨before, e, after, rfl, hpick, hlt,
        hbefore, hafter⟩
      · exact Or.inr ⟨[], first, rest, rfl, hpick, hgt, fun b hb => absurd hb List.not_mem_nil, hle⟩
      · refine Or.inr ⟨first :: before, e, after, rfl, hpick, lt_trans hgt hlt, ?_, hafter⟩
        intro b hb
        rcases List.mem_cons.mp hb with rfl | hb
        · exact hlt
        · exact hbefore b hb
    · rename_i hngt
      have hle : first.2 ≤ bestFreq := not_lt.mp hngt
      rcases ih best bestFreq with ⟨hpick, hrest⟩ | ⟨before, e, after, rfl, hpick, hlt,
        hbefore, hafter⟩
      · refine Or.inl ⟨hpick, ?_⟩
        intro e he
        rcases List.mem_cons.mp he with rfl | he
        · exact hle
        · exact hrest e he
      · refine Or.inr ⟨first :: before, e, after, rfl, hpick, hlt, ?_, hafter⟩
        intro b hb
        rcases List.mem_cons.mp hb with rfl | hb
        · exact lt_of_le_of_lt hle hlt
        · exact hbefore b hb

/-! ## What is suggested -/

/-- How often each text was sent; nothing tells a text that was never sent from one with the count
0. -/
def Counts (e : Engine) (sent : Bytes → Int) : Prop := ∀ k, e.count k = sent k

/-- The completion sent most often, and of several the first one in order. -/
structure Best (sent : Bytes → Int) (typed k : Bytes) : Prop where
  begun : typed ≠ []
  goesOn : typed <+: k ∧ k ≠ typed
  known : 0 < sent k
  most : ∀ k', typed <+: k' → k' ≠ typed → k' ≠ k → sent k' < sent k ∨ (sent k' = sent k ∧ k < k')

theorem Best.unique {sent : Bytes → Int} {typed k k' : Bytes} (h : Best sent typed k)
    (h' : Best sent typed k') : k = k' := by
  by_contra hne
  rcases h.most k' h'.goesOn.1 h'.goesOn.2 (Ne.symm hne) with hlt | ⟨heq, hlt⟩
  · rcases h'.most k h.goesOn.1 h.goesOn.2 hne with hlt' | ⟨heq', -⟩
    · exact lt_asymm hlt hlt'
    · exact absurd heq' (ne_of_gt hlt)
  · rcases h'.most k h.goesOn.1 h.goesOn.2 hne with hlt' | ⟨-, hlt'⟩
    · exact absurd heq (ne_of_gt hlt')
    · exact Std.lt_irrefl (Std.lt_trans hlt hlt')

/-- The entries that a suggestion is picked from. -/
def completions (e : Engine) (typed : Bytes) : List (Bytes × Int) :=
  (e.freq.filter fun entry => typed <+: entry.1).filter fun entry => entry.1 ≠ typed

theorem suggest_eq (e : Engine) {typed : Bytes} (h : typed ≠ []) :
    e.suggest typed = pick (completions e typed) none 0 := by
  rw [Engine.suggest, if_neg h, scan_eq, Prefixes.takeWhile_lowerBound e.sorted]
  rfl

theorem mem_completions {e : Engine} {typed : Bytes} {entry : Bytes × Int} :
    entry ∈ completions e typed ↔ e.freq.lookup entry.1 = some entry.2 ∧ typed <+: entry.1 ∧
      entry.1 ≠ typed := by
  rw [completions, List.mem_filter, List.mem_filter, Prefixes.mem_iff_lookup e.sorted,
    decide_eq_true_eq, decide_eq_true_eq, and_assoc]

theorem completions_sorted (e : Engine) (typed : Bytes) : Prefixes.Sorted (completions e typed) :=
  (e.sorted.filter _).filter _

theorem best_of_pick {e : Engine} {sent : Bytes → Int} (hc : Counts e sent) {typed : Bytes}
    (ht : typed ≠ []) {before after : List (Bytes × Int)} {entry : Bytes × Int}
    (hsplit : completions e typed = before ++ entry :: after) (hpos : 0 < entry.2)
    (hbefore : ∀ b ∈ before, b.2 < entry.2) (hafter : ∀ a ∈ after, a.2 ≤ entry.2) :
    Best sent typed entry.1 := by
  have hin : entry ∈ completions e typed := by
    rw [hsplit]
    exact List.mem_append_right _ List.mem_cons_self
  obtain ⟨hlookup, hgoes⟩ := mem_completions.mp hin
  have hsent : sent entry.1 = entry.2 := by
    rw [← hc, Engine.count, hlookup]
    rfl
  refine ⟨ht, hgoes, hsent ▸ hpos, ?_⟩
  intro k' hk' hne hother
  rw [hsent]
  cases hl : e.freq.lookup k' with
  | none =>
    have hzero : sent k' = 0 := by
      rw [← hc, Engine.count, hl]
      rfl
    exact Or.inl (hzero ▸ hpos)
  | some n =>
    have hn : sent k' = n := by
      rw [← hc, Engine.count, hl]
      rfl
    rw [hn]
    have hmem : (k', n) ∈ completions e typed := mem_completions.mpr ⟨hl, hk', hne⟩
    rw [hsplit] at hmem
    rcases List.mem_append.mp hmem with hmem | hmem
    · exact Or.inl (hbefore _ hmem)
    · rcases List.mem_cons.mp hmem with heq | hmem
      · exact absurd (congrArg Prod.fst heq) hother
      · have hsorted := completions_sorted e typed
        rw [hsplit, Prefixes.Sorted, List.pairwise_append] at hsorted
        -- Of two equal counts the map gives the smaller text first.
        have hlt : entry.1 < k' := (List.pairwise_cons.mp hsorted.2.1).1 (k', n) hmem
        rcases lt_or_eq_of_le (hafter _ hmem) with h | h
        · exact Or.inl h
        · exact Or.inr ⟨h, hlt⟩

theorem mem_of_sent {e : Engine} {sent : Bytes → Int} (hc : Counts e sent) {typed k : Bytes}
    (hgoes : typed <+: k ∧ k ≠ typed) (hk : 0 < sent k) : (k, sent k) ∈ completions e typed := by
  rw [mem_completions, ← hc, Engine.count]
  rw [← hc, Engine.count] at hk
  cases hl : e.freq.lookup k with
  | none =>
    rw [hl] at hk
    exact absurd hk (lt_irrefl _)
  | some n => exact ⟨rfl, hgoes⟩

theorem suggest_cases {e : Engine} {sent : Bytes → Int} (hc : Counts e sent) {typed : Bytes}
    (ht : typed ≠ []) :
    (e.suggest typed = none ∧ ∀ k, typed <+: k ∧ k ≠ typed → ¬ 0 < sent k) ∨
      ∃ k, e.suggest typed = some k ∧ Best sent typed k := by
  rw [suggest_eq e ht]
  rcases pick_cases (completions e typed) none 0
    with ⟨hpick, hnone⟩ | ⟨before, entry, after, hsplit, hpick, hpos, hbefore, hafter⟩
  · refine Or.inl ⟨hpick, ?_⟩
    intro k hgoes hk
    exact absurd (hnone _ (mem_of_sent hc hgoes hk)) (not_le.mpr hk)
  · exact Or.inr ⟨entry.1, hpick, best_of_pick hc ht hsplit hpos hbefore hafter⟩

theorem suggest_iff {e : Engine} {sent : Bytes → Int} (hc : Counts e sent) (typed k : Bytes) :
    e.suggest typed = some k ↔ Best sent typed k := by
  by_cases ht : typed = []
  · rw [Engine.suggest, if_pos ht]
    exact ⟨fun h => (Option.some_ne_none k h.symm).elim, fun h => absurd ht h.begun⟩
  · rcases suggest_cases hc ht with ⟨hnone, hsent⟩ | ⟨k', hsome, hbest⟩
    · rw [hnone]
      exact ⟨fun h => (Option.some_ne_none k h.symm).elim,
        fun h => absurd h.known (hsent k h.goesOn)⟩
    · rw [hsome, Option.some.injEq]
      constructor
      · rintro rfl
        exact hbest
      · exact fun h => hbest.unique h

/-! ## Runs -/

inductive Op where
  | record (text : Bytes)
  | load (data : Engine)
  | clear

def Engine.apply (e : Engine) : Op → Option Engine
  | .record text => e.record text
  | .load data => some data
  | .clear => some .empty

/-- What an operation does to the counts. -/
def tally (sent : Bytes → Int) : Op → Bytes → Int
  | .record text => fun k => if k = text ∧ text ≠ [] then sent k + 1 else sent k
  | .load data => data.count
  | .clear => fun _ => 0

/-- The operation does not count over the bound. -/
def Fits (sent : Bytes → Int) : Op → Prop
  | .record text => text = [] ∨ sent text < intMax
  | _ => True

theorem apply_counts {e : Engine} {sent : Bytes → Int} (h : Counts e sent) {op : Op}
    (hfits : Fits sent op) : ∃ e', e.apply op = some e' ∧ Counts e' (tally sent op) := by
  cases op with
  | record text =>
    by_cases ht : text = []
    · refine ⟨e, if_pos ht, fun k => ?_⟩
      dsimp only [tally]
      rw [if_neg fun hk => hk.2 ht]
      exact h k
    · have hlt : e.count text < intMax := by
        rw [h text]
        exact hfits.resolve_left ht
      refine ⟨_, (if_neg ht).trans (dif_pos hlt), fun k => ?_⟩
      dsimp only [tally]
      rw [Engine.count, Prefixes.lookup_update e.sorted]
      by_cases hk : k = text
      · rw [if_pos hk, if_pos ⟨hk, ht⟩, Option.getD_some, ← h k, hk]
        rfl
      · rw [if_neg hk, if_neg fun hk' => hk hk'.1]
        exact h k
  | load data => exact ⟨data, rfl, fun _ => rfl⟩
  | clear => exact ⟨.empty, rfl, fun _ => rfl⟩

/-- No operation of a run counts over the bound. -/
def AllFit (sent : Bytes → Int) : List Op → Prop
  | [] => True
  | op :: ops => Fits sent op ∧ AllFit (tally sent op) ops

theorem run_counts {ops : List Op} {e : Engine} {sent : Bytes → Int} (h : Counts e sent)
    (hfit : AllFit sent ops) :
    ∃ e', ops.foldlM Engine.apply e = some e' ∧ Counts e' (ops.foldl tally sent) := by
  induction ops generalizing e sent with
  | nil => exact ⟨e, rfl, h⟩
  | cons op ops ih =>
    obtain ⟨e1, happly, h1⟩ := apply_counts h hfit.1
    obtain ⟨e', hrun, hcounts⟩ := ih h1 hfit.2
    refine ⟨e', ?_, hcounts⟩
    rw [List.foldlM_cons, happly]
    exact hrun

/-- After any recorded, loaded and cleared texts, a suggestion is the completion that was sent most
often, the first one in order where several were, and there is one as soon as some completion was
sent. -/
theorem run_suggests (ops : List Op) (hfit : AllFit (fun _ => 0) ops) :
    ∃ e, ops.foldlM Engine.apply .empty = some e ∧ ∀ typed,
      (∀ k, e.suggest typed = some k ↔ Best (ops.foldl tally fun _ => 0) typed k) ∧
        ((e.suggest typed).isSome = true ↔
          typed ≠ [] ∧ ∃ k, (typed <+: k ∧ k ≠ typed) ∧ 0 < ops.foldl tally (fun _ => 0) k) := by
  have hempty : Counts .empty fun _ => 0 := fun _ => rfl
  obtain ⟨e, hrun, hc⟩ := run_counts hempty hfit
  refine ⟨e, hrun, fun typed => ⟨suggest_iff hc typed, ?_⟩⟩
  constructor
  · intro h
    obtain ⟨k, hk⟩ := Option.isSome_iff_exists.mp h
    have hbest := (suggest_iff hc typed k).mp hk
    exact ⟨hbest.begun, k, hbest.goesOn, hbest.known⟩
  · rintro ⟨ht, k, hgoes, hk⟩
    rcases suggest_cases hc ht with ⟨-, hsent⟩ | ⟨k', hsome, -⟩
    · exact absurd hk (hsent k hgoes)
    · rw [hsome]
      rfl

theorem git_status_suggested :
    ∃ e, [Op.record (ascii "git log"), .record (ascii "git status"),
      .record (ascii "git status")].foldlM Engine.apply .empty =
        some e ∧ (e.suggest (ascii "git")).isSome = true := by
  have hfit : AllFit (fun _ => 0)
      [Op.record (ascii "git log"), .record (ascii "git status"), .record (ascii "git status")] :=
    ⟨Or.inr (by decide), Or.inr (by decide), Or.inr (by decide), trivial⟩
  obtain ⟨e, hrun, hsuggests⟩ := run_suggests _ hfit
  refine ⟨e, hrun, (hsuggests _).2.mpr ⟨by decide, ascii "git status", by decide, by decide⟩⟩

end Euxis.Etx.GhostText
