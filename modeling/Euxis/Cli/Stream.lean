import Mathlib.Data.List.Infix
import Euxis.Audit.Code
import Euxis.Json.RoundTrip
import Euxis.Pieces
import Euxis.Records

/-!
# Streamed answers: the stream parsers of `apps/cli/src/provider_executor.cpp`

The answer of a model arrives over a pipe in chunks that end anywhere. The parser for Claude keeps
an unfinished line for the next chunk; the one for Ollama takes each chunk for itself.
-/

namespace Euxis.Cli

open Records (feedAll)

variable (codec : JsonCodec)

/-! ## The parsers -/

/-- `if (!text.empty()) on_chunk(text)`. -/
def emit (text : Bytes) : List Bytes := if text = [] then [] else [text]

/-- What the member holds, or nothing where the library throws: the exception is caught and
logged. -/
def textOr (member : Except JsonError Bytes) : Bytes :=
  match member with
  | .ok text => text
  | .error _ => []

/-- A missing `delta` becomes null, on which `value` throws. -/
def claudeText (line : Bytes) : Bytes :=
  if (ascii "data: ").isPrefixOf line then
    if line.drop 6 = ascii "[DONE]" then []
    else
      match codec.parse (line.drop 6) with
      | none => []
      | some j =>
        if textOr (j.valueStr (ascii "type") []) = ascii "content_block_delta" then
          textOr (((j.find (ascii "delta")).getD .null).valueStr (ascii "text") [])
        else []
  else []

/-- `sse_parser` of `execute_claude`: the new `sse_buffer`, and the texts for `on_chunk`. -/
def claudeParser (sseBuffer chunk : Bytes) : Bytes × List Bytes :=
  let lines := Records.records [ch '\n'] (sseBuffer ++ chunk)
  (lines.2, lines.1.flatMap fun line => emit (claudeText codec line))

def ollamaText (line : Bytes) : Bytes :=
  if line = [] then []
  else
    match codec.parse line with
    | none => []
    | some j => textOr (j.valueStr (ascii "response") [])

/-- `sse_parser` of `execute_ollama`. -/
def ollamaParser (chunk : Bytes) : List Bytes :=
  (Audit.getLines chunk).flatMap fun line => emit (ollamaText codec line)

/-- All texts of a stream, one after the other. -/
def claudeOutput (chunks : List Bytes) : Bytes := (feedAll (claudeParser codec) [] chunks).2.flatten

def ollamaOutput (chunks : List Bytes) : Bytes := (chunks.flatMap (ollamaParser codec)).flatten

/-! ## Claude -/

theorem claudeOutput_chunks (chunks : List Bytes) :
    claudeOutput codec chunks = claudeOutput codec [chunks.flatten] := by
  have hsep : [ch '\n'] ≠ [] := by decide
  have hfeed := Records.feedAll_feed hsep (fun line => emit (claudeText codec line)) []
  unfold claudeOutput
  change (feedAll (Records.feed _ _) [] chunks).2.flatten =
    (feedAll (Records.feed _ _) [] [chunks.flatten]).2.flatten
  rw [hfeed rfl chunks, hfeed rfl [chunks.flatten], List.flatten_singleton]

/-! ## Ollama -/

theorem flatten_emit (text : Bytes) : (emit text).flatten = text := by
  unfold emit
  split
  · rename_i h
    rw [h]
    rfl
  · exact List.flatten_singleton

theorem flatMap_getLines {β : Type} (say : Bytes → List β) (hnil : say [] = []) (content : Bytes) :
    (Audit.getLines content).flatMap say = (content.splitOn (ch '\n')).flatMap say := by
  rcases Audit.splitOn_getLines content with h | h
  · rw [h]
  · rw [h, List.flatMap_append, List.flatMap_singleton, hnil, List.append_nil]

theorem ollamaOutput_eq (chunks : List Bytes) :
    ollamaOutput codec chunks = chunks.flatMap fun c => (c.splitOn (ch '\n')).flatMap
      (ollamaText codec) := by
  have hchunk : ∀ c, (ollamaParser codec c).flatten =
      (c.splitOn (ch '\n')).flatMap (ollamaText codec) := by
    intro c
    rw [← flatMap_getLines _ rfl, ollamaParser, List.flatten_eq_flatMap, List.flatMap_assoc]
    apply List.flatMap_congr
    intro line _
    rw [← List.flatten_eq_flatMap, flatten_emit]
  rw [ollamaOutput, List.flatten_eq_flatMap, List.flatMap_assoc]
  apply List.flatMap_congr
  intro c _
  rw [← List.flatten_eq_flatMap, hchunk]

/-- What the endpoint sends: an object a line, and no part of a line is an object with a response of
its own. -/
def ResponseLines (s : Bytes) : Prop :=
  ∀ line ∈ s.splitOn (ch '\n'), ∀ part, part <:+: line → part ≠ line → ollamaText codec part = []

/-- Every line with a text comes in one piece. A chunk may end before or behind a line feed. -/
def TextsWhole (chunks : List Bytes) : Prop :=
  ∀ pieces ∈ Pieces.cutLines (ch '\n') chunks, ollamaText codec pieces.flatten ≠ [] →
    pieces.flatten ∈ pieces

/-- A line that is cut has no text, and no piece of it has one. -/
def CutsSilent (chunks : List Bytes) : Prop :=
  ∀ pieces ∈ Pieces.cutLines (ch '\n') chunks, pieces.flatten ∉ pieces →
    ollamaText codec pieces.flatten = [] ∧ ∀ p ∈ pieces, ollamaText codec p = []

/-- **Streamed answers.** The text of Claude's answer does not depend on the chunks. That of
Ollama's answer does not if the lines that are cut have no text; and for what the endpoint sends, it
is the same as in one chunk if and only if every line with a text comes in one piece. -/
theorem output_chunks_iff (codec : JsonCodec) (s : Bytes) (chunks : List Bytes)
    (h : chunks.flatten = s) :
    claudeOutput codec chunks = claudeOutput codec [s] ∧
    (CutsSilent codec chunks → ollamaOutput codec chunks = ollamaOutput codec [s]) ∧
    (ResponseLines codec s →
      (ollamaOutput codec chunks = ollamaOutput codec [s] ↔ TextsWhole codec chunks)) := by
  subst h
  refine ⟨claudeOutput_chunks codec chunks, ?_, ?_⟩
  · intro hsilent
    rw [ollamaOutput_eq, ollamaOutput_eq, List.flatMap_singleton]
    exact Pieces.flatMap_chunks_eq rfl hsilent
  · intro hlines
    rw [ollamaOutput_eq, ollamaOutput_eq, List.flatMap_singleton]
    exact Pieces.flatMap_chunks_eq_iff rfl hlines

/-! ### One line in two chunks -/

def responseLine : Bytes := Json.write (.obj [(ascii "response", .str (ascii "a"))])

theorem responseLine_lines : ResponseLines Json.textCodec (responseLine ++ [ch '\n']) := by
  have hparts : ∀ tail ∈ responseLine.tails, ∀ part ∈ tail.inits, part ≠ responseLine →
      ollamaText Json.textCodec part = [] := by decide +kernel
  intro line hline part hpart hne
  have hsplit : (responseLine ++ [ch '\n']).splitOn (ch '\n') = [responseLine, []] := by decide
  rw [hsplit, List.mem_cons, List.mem_singleton] at hline
  rcases hline with rfl | rfl
  · obtain ⟨tail, hpre, hsuf⟩ := List.infix_iff_prefix_suffix.mp hpart
    exact hparts tail ((List.mem_tails tail responseLine).mpr hsuf) part
      ((List.mem_inits part tail).mpr hpre) hne
  · exact absurd (List.infix_nil.mp hpart) hne

theorem line_feed_apart_same :
    ollamaOutput Json.textCodec [responseLine, [ch '\n']] =
      ollamaOutput Json.textCodec [responseLine ++ [ch '\n']] := by
  refine ((output_chunks_iff Json.textCodec (responseLine ++ [ch '\n']) [responseLine,
    [ch '\n']] rfl).2.2
    responseLine_lines).mpr ?_
  unfold TextsWhole
  decide +kernel

theorem cut_line_loses_text :
    [responseLine.take 6, responseLine.drop 6 ++ [ch '\n']].flatten = responseLine ++ [ch '\n'] ∧
      ollamaOutput Json.textCodec [responseLine ++ [ch '\n']] = ascii "a" ∧
      ollamaOutput Json.textCodec [responseLine.take 6, responseLine.drop 6 ++ [ch '\n']] ≠
        ollamaOutput Json.textCodec [responseLine ++ [ch '\n']] := by
  decide +kernel

end Euxis.Cli
