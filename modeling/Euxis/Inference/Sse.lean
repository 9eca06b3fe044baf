import Euxis.Bytes
import Euxis.Records

/-!
# Server-sent events: the `SseParser` of `libs/inference/src`

Each of the three streaming providers has a class `SseParser` of its own, and the three have one
body. A record ends with a blank line, and what its `data:` lines carry is delivered.
-/

namespace Euxis.Inference

open Records (records feedAll)

inductive Provider where
  | claude
  | openai
  | gemini
  deriving DecidableEq, Repr

/-! ## The parser -/

def blankLine : Bytes := ascii "\n\n"

/-- What a line delivers. -/
def dataOf (line : Bytes) : Option Bytes :=
  if (ascii "data: ").isPrefixOf line then some (line.drop 6)
  else if (ascii "data:").isPrefixOf line then some (line.drop 5)
  else none

/-- The loop does not visit an empty last line, which would deliver nothing. -/
def payloads (record : Bytes) : List Bytes := (record.splitOn (ch '\n')).filterMap dataOf

/-- `feed`: the new `buf_`, and the payloads that `on_event` gets. -/
def SseParser.feed (buf bytes : Bytes) : Bytes × List Bytes :=
  ((records blankLine (buf ++ bytes)).2, (records blankLine (buf ++ bytes)).1.flatMap payloads)

def ClaudeStreaming.feed : Bytes → Bytes → Bytes × List Bytes := SseParser.feed

def OpenAIStreaming.feed : Bytes → Bytes → Bytes × List Bytes := SseParser.feed

def GeminiStreaming.feed : Bytes → Bytes → Bytes × List Bytes := SseParser.feed

def Provider.feed : Provider → Bytes → Bytes → Bytes × List Bytes
  | .claude => ClaudeStreaming.feed
  | .openai => OpenAIStreaming.feed
  | .gemini => GeminiStreaming.feed

/-! ## Chunks -/

/-- The record stands between two blank lines, or between the start and a blank line, and has none
in it. -/
structure CompleteRecord (s record : Bytes) : Prop where
  place : ∃ before after, s = before ++ (record ++ blankLine) ++ after ∧
    (before = [] ∨ blankLine <:+ before)
  free : ¬ blankLine <:+: record

theorem completeRecord_of_mem (s record : Bytes) (h : record ∈ (records blankLine s).1) :
    CompleteRecord s record := by
  refine ⟨?_, Records.records_free (by decide) s record h⟩
  obtain ⟨xs, ys, hxy⟩ := List.append_of_mem h
  have hsep : blankLine ≠ [] := by decide
  have htext := Records.records_text hsep s
  rw [hxy, List.flatMap_append, List.flatMap_cons] at htext
  refine ⟨xs.flatMap (· ++ blankLine), ys.flatMap (· ++ blankLine) ++ (records blankLine s).2, ?_,
    ?_⟩
  · refine htext.symm.trans ?_
    simp only [List.append_assoc]
  · rcases List.eq_nil_or_concat xs with rfl | ⟨xs', last, rfl⟩
    · exact Or.inl rfl
    · right
      rw [List.concat_eq_append, List.flatMap_append, List.flatMap_singleton, ← List.append_assoc]
      exact List.suffix_append _ _

/-- **Server-sent events.** For each provider, the payloads do not depend on how the bytes are cut
into chunks, and each one is what a `data:` line of a complete record carries. -/
theorem feed_chunks (provider : Provider) (s : Bytes) (chunks : List Bytes)
    (h : chunks.flatten = s) :
    (feedAll provider.feed [] chunks).2 = (provider.feed [] s).2 ∧
    ∀ payload ∈ (feedAll provider.feed [] chunks).2, ∃ record, CompleteRecord s record ∧
      ∃ line ∈ record.splitOn (ch '\n'), dataOf line = some payload := by
  have hfeed : provider.feed = Records.feed blankLine payloads := by cases provider <;> rfl
  have hsame : feedAll provider.feed [] chunks = provider.feed [] s := by
    rw [hfeed, ← h]
    exact Records.feedAll_feed (by decide) payloads [] rfl chunks
  refine ⟨congrArg Prod.snd hsame, ?_⟩
  rw [hsame, hfeed]
  intro payload hpayload
  obtain ⟨record, hrecord, hin⟩ := List.mem_flatMap.mp hpayload
  obtain ⟨line, hline, hdata⟩ := List.mem_filterMap.mp hin
  exact ⟨record, completeRecord_of_mem s record hrecord, line, hline, hdata⟩

theorem split_blank_line_delivers :
    (feedAll Provider.claude.feed [] [ascii "data:a\n", [], ascii "\n\ndata: b\n\n"]).2 =
      (Provider.claude.feed [] (ascii "data:a\n\n\ndata: b\n\n")).2 :=
  (feed_chunks .claude _ [ascii "data:a\n", [], ascii "\n\ndata: b\n\n"] (by decide)).1

end Euxis.Inference
