import GrokBuild.Text.Lines
import GrokBuild.Text.Utf8Decode
import GrokBuild.Transcript.Cursor

/-!
# Readers of the update log

`updates.jsonl` is read in three ways: split at newline bytes and decoded line by line, by a
buffered reader that decodes each line it reads, and as one string for a replay. The JSON reader
is a parameter.
-/

namespace GrokBuild.Transcript

open GrokBuild.Text

variable {A X : Type}

section Records

/-- A record of the log, by the method it was sent with. -/
inductive LoadedUpdate (A X : Type) where
  | acp (notification : A)
  | xai (notification : X)
deriving DecidableEq

structure BorrowedEnvelope where
  method : Option Str := none
  params : Str
deriving DecidableEq

/-- `serde_json` on the types that a line is read as. -/
structure EnvelopeReader (A X : Type) where
  envelope : Str → Option BorrowedEnvelope
  acp : Str → Option A
  xai : Str → Option X

/-- `SessionUpdateEnvelope::from_str`; a line without envelope is of the older format. -/
def fromStr (reader : EnvelopeReader A X) (line : Str) : Option (LoadedUpdate A X) :=
  match reader.envelope line with
  | some env =>
    if env.method = some xaiSessionUpdateMethod then (reader.xai env.params).map .xai
    else (reader.acp env.params).map .acp
  | none => (reader.acp line).map .acp

def isJsonWhitespace (c : Char) : Bool := c = ' ' || c = '\t' || c = '\n' || c = '\r'

/-- A reader of JSON passes over the white space of JSON around a value and over no other. -/
structure ReadsJson {α : Type} (read : Str → Option α) : Prop where
  empty : read [] = none
  pad : ∀ x s y, (∀ c ∈ x, isJsonWhitespace c = true) → (∀ c ∈ y, isJsonWhitespace c = true) →
    read (x ++ s ++ y) = read s
  head : ∀ s a, read s = some a → ∀ c ∈ s.head?, isWhitespace c = true → isJsonWhitespace c = true
  last : ∀ s a, read s = some a → ∀ c ∈ s.getLast?, isWhitespace c = true → isJsonWhitespace c = true

structure EnvelopeReader.Lawful (reader : EnvelopeReader A X) : Prop where
  envelope : ReadsJson reader.envelope
  acp : ReadsJson reader.acp

end Records

section Readers

variable (reader : EnvelopeReader A X)

/-- `u8::is_ascii_whitespace`. -/
def isAsciiWhitespaceByte (b : UInt8) : Bool :=
  b = 0x20 || b = 0x09 || b = 0x0a || b = 0x0c || b = 0x0d

/-- `contents.split(|b| *b == b'\n')`. -/
def splitNewlines : Bytes → List Bytes
  | [] => [[]]
  | b :: bytes =>
    if b = 0x0a then [] :: splitNewlines bytes
    else
      match splitNewlines bytes with
      | [] => [[b]]
      | line :: lines => (b :: line) :: lines

def readUpdatesJsonl (contents : Bytes) : List (LoadedUpdate A X) :=
  (splitNewlines contents).filterMap fun line =>
    let line := trimMatches isAsciiWhitespaceByte line
    if line = [] then none else (fromUtf8 line).bind (fromStr reader)

/-- The items of the iterator, of which `none` is an error. A line that is not UTF-8 is consumed
before the error is returned. -/
def updatesIteratorItems (contents : Bytes) : List (Option (LoadedUpdate A X)) :=
  (byteLinesInclusive contents).filterMap fun bytes =>
    match fromUtf8 bytes with
    | none => some none
    | some line => if trim line = [] then none else some (fromStr reader (trim line))

/-- The items that are not errors. -/
def iteratedUpdates (contents : Bytes) : List (LoadedUpdate A X) :=
  (updatesIteratorItems reader contents).filterMap id

/-- The records that a replay has before it filters rewinds: nothing if the file cannot be read
as a string. -/
def replayedUpdates (contents : Bytes) : List (LoadedUpdate A X) :=
  match fromUtf8 contents with
  | none => []
  | some raw => ((Text.lines raw).filter fun l => trim l ≠ []).filterMap (fromStr reader)

end Readers

section Definitions

def trimJson (s : Str) : Str := (s.dropWhile isJsonWhitespace).rdropWhile isJsonWhitespace

/-- The line is a record once all white space around it is gone. -/
def HoldsRecord (reader : EnvelopeReader A X) (line : Bytes) : Prop :=
  ∃ s, fromUtf8 line = some s ∧ (fromStr reader (trim s)).isSome = true

/-- Around the text of the line there is no white space but that of JSON. -/
def PlainlySpaced (line : Bytes) : Prop := ∀ s, fromUtf8 line = some s → trimJson s = trim s

end Definitions

section Split

/-- A text of bytes is a line, or a line before a text. -/
theorem newline_induction {P : Bytes → Prop} (last : ∀ x, (0x0a : UInt8) ∉ x → P x)
    (line : ∀ x t, (0x0a : UInt8) ∉ x → P t → P (x ++ 0x0a :: t)) (bytes : Bytes) : P bytes := by
  induction hn : bytes.length using Nat.strong_induction_on generalizing bytes with
  | _ n ih =>
    by_cases hmem : (0x0a : UInt8) ∈ bytes
    · obtain ⟨x, t, rfl, hx⟩ := List.eq_append_cons_of_mem hmem
      refine line x t hx (ih t.length ?_ t rfl)
      simp only [List.length_append, List.length_cons] at hn
      omega
    · exact last bytes hmem

theorem splitNewlines_last {x : Bytes} (h : (0x0a : UInt8) ∉ x) : splitNewlines x = [x] := by
  induction x with
  | nil => rfl
  | cons b x ih =>
    rw [List.mem_cons, not_or] at h
    rw [splitNewlines, if_neg fun hb => h.1 hb.symm, ih h.2]

theorem splitNewlines_line {x : Bytes} (h : (0x0a : UInt8) ∉ x) (t : Bytes) :
    splitNewlines (x ++ 0x0a :: t) = x :: splitNewlines t := by
  induction x with
  | nil => rw [List.nil_append, splitNewlines, if_pos rfl]
  | cons b x ih =>
    rw [List.mem_cons, not_or] at h
    rw [List.cons_append, splitNewlines, if_neg fun hb => h.1 hb.symm, ih h.2]

theorem byteLinesInclusive_last {x : Bytes} (h : (0x0a : UInt8) ∉ x) :
    byteLinesInclusive x = if x = [] then [] else [x] := by
  induction x with
  | nil => rfl
  | cons b x ih =>
    rw [List.mem_cons, not_or] at h
    have hb : (b == 0x0a) = false := by simpa using fun hb => h.1 hb.symm
    rw [byteLinesInclusive, hb, if_neg Bool.false_ne_true, ih h.2, if_neg (List.cons_ne_nil _ _)]
    by_cases hx : x = []
    · rw [if_pos hx, hx]
    · rw [if_neg hx]

theorem byteLinesInclusive_line {x : Bytes} (h : (0x0a : UInt8) ∉ x) (t : Bytes) :
    byteLinesInclusive (x ++ 0x0a :: t) = (x ++ [0x0a]) :: byteLinesInclusive t := by
  induction x with
  | nil => rfl
  | cons b x ih =>
    rw [List.mem_cons, not_or] at h
    have hb : (b == 0x0a) = false := by simpa using fun hb => h.1 hb.symm
    rw [List.cons_append, byteLinesInclusive, hb, if_neg Bool.false_ne_true, ih h.2]
    rfl

end Split

section Strip

variable {p q : Char → Bool}

/-- A text without the characters of a kind at both ends. -/
def strip (p : Char → Bool) (s : Str) : Str := (s.dropWhile p).rdropWhile p

theorem strip_parts (p : Char → Bool) (s : Str) :
    ∃ x y, s = x ++ strip p s ++ y ∧ (∀ c ∈ x, p c = true) ∧ (∀ c ∈ y, p c = true) := by
  refine ⟨s.takeWhile p, (s.dropWhile p).rtakeWhile p, ?_, ?_, ?_⟩
  · rw [strip, List.append_assoc, List.rdropWhile_append_rtakeWhile, List.takeWhile_append_dropWhile]
  · exact fun c hc => List.mem_takeWhile_imp hc
  · exact fun c hc => List.mem_rtakeWhile_imp hc

theorem strip_head (p : Char → Bool) (s : Str) {c : Char} (hc : c ∈ (strip p s).head?) :
    p c = false := by
  have hprefix : strip p s <+: s.dropWhile p := List.rdropWhile_prefix _ _
  have hhead : (s.dropWhile p).head? = some c := by
    obtain ⟨rest, hrest⟩ := hprefix
    rw [← hrest, List.head?_append, Option.mem_def.1 hc]
    rfl
  have hnot := List.head?_dropWhile_not p s
  rw [hhead] at hnot
  exact hnot

theorem strip_last (p : Char → Bool) (s : Str) {c : Char} (hc : c ∈ (strip p s).getLast?) :
    p c = false := by
  obtain ⟨rest, hrest⟩ := List.getLast?_eq_some_iff.1 (Option.mem_def.1 hc)
  have hne : (s.dropWhile p).rdropWhile p ≠ [] := by
    rw [← strip, hrest]
    simp
  have hnot := List.rdropWhile_last_not p (s.dropWhile p) hne
  have hlast : ((s.dropWhile p).rdropWhile p).getLast hne = c := by
    rw [List.getLast_eq_iff_getLast?_eq_some]
    exact Option.mem_def.1 hc
  rw [hlast] at hnot
  exact eq_false_of_ne_true hnot

/-- What stands between such characters and has none at its own ends. -/
theorem strip_eq {x core y : Str} (hx : ∀ c ∈ x, p c = true) (hy : ∀ c ∈ y, p c = true)
    (hne : core ≠ []) (hhead : ∀ c ∈ core.head?, p c = false)
    (hlast : ∀ c ∈ core.getLast?, p c = false) : strip p (x ++ core ++ y) = core := by
  obtain ⟨c, rest, rfl⟩ := List.exists_cons_of_ne_nil hne
  have hdrop : (x ++ (c :: rest) ++ y).dropWhile p = (c :: rest) ++ y := by
    rw [List.append_assoc, List.dropWhile_append_of_pos hx, List.cons_append,
      List.dropWhile_cons_of_neg (ne_true_of_eq_false (hhead c rfl))]
  obtain ⟨front, d, hd⟩ : ∃ front d, c :: rest = front ++ [d] :=
    ⟨_, _, (List.dropLast_append_getLast hne).symm⟩
  rw [strip, hdrop, List.rdropWhile, List.reverse_append,
    List.dropWhile_append_of_pos fun a ha => hy a (List.mem_reverse.1 ha), ← List.rdropWhile, hd,
    List.rdropWhile_concat_neg _ _ _ (by simp [hlast d, hd])]

/-- More may be stripped if what is left has no such character at its ends. -/
theorem strip_eq_of_le (hle : ∀ c, p c = true → q c = true) {s : Str} (hne : strip p s ≠ [])
    (hhead : ∀ c ∈ (strip p s).head?, q c = false) (hlast : ∀ c ∈ (strip p s).getLast?, q c = false) :
    strip q s = strip p s := by
  obtain ⟨x, y, hs, hx, hy⟩ := strip_parts p s
  have heq := strip_eq (fun c hc => hle c (hx c hc)) (fun c hc => hle c (hy c hc)) hne hhead hlast
  rwa [← hs] at heq

end Strip

section Lines

variable {reader : EnvelopeReader A X} {s : Str} {u : LoadedUpdate A X}

def isAsciiWhitespace (c : Char) : Bool :=
  c = ' ' || c = '\t' || c = '\n' || c = '\x0c' || c = '\r'

theorem asciiTest_whitespace : AsciiTest isAsciiWhitespaceByte isAsciiWhitespace where
  ascii b h := by
    simp only [isAsciiWhitespaceByte, Bool.or_eq_true, decide_eq_true_eq] at h
    rcases h with (((rfl | rfl) | rfl) | rfl) | rfl <;> decide
  char b h := by
    simp only [isAsciiWhitespaceByte, Bool.or_eq_true, decide_eq_true_eq] at h
    rcases h with (((rfl | rfl) | rfl) | rfl) | rfl <;> decide
  byte c h := by
    simp only [isAsciiWhitespace, Bool.or_eq_true, decide_eq_true_eq] at h
    rcases h with (((rfl | rfl) | rfl) | rfl) | rfl
    · exact ⟨0x20, by decide, by decide⟩
    · exact ⟨0x09, by decide, by decide⟩
    · exact ⟨0x0a, by decide, by decide⟩
    · exact ⟨0x0c, by decide, by decide⟩
    · exact ⟨0x0d, by decide, by decide⟩

theorem isAsciiWhitespace_of_json {c : Char} (h : isJsonWhitespace c = true) :
    isAsciiWhitespace c = true := by
  simp only [isJsonWhitespace, isAsciiWhitespace, Bool.or_eq_true, decide_eq_true_eq] at h ⊢
  tauto

theorem isWhitespace_of_ascii {c : Char} (h : isAsciiWhitespace c = true) : isWhitespace c = true := by
  simp only [isAsciiWhitespace, Bool.or_eq_true, decide_eq_true_eq] at h
  rcases h with (((rfl | rfl) | rfl) | rfl) | rfl <;> decide

theorem readsJson_fromStr (h : reader.Lawful) : ReadsJson (fromStr reader) where
  empty := by
    rw [fromStr, h.envelope.empty, h.acp.empty]
    rfl
  pad x s y hx hy := by
    rw [fromStr, fromStr, h.envelope.pad x s y hx hy, h.acp.pad x s y hx hy]
  head s u hu := by
    rw [fromStr] at hu
    cases henv : reader.envelope s with
    | some env => exact h.envelope.head s env henv
    | none =>
      rw [henv] at hu
      obtain ⟨a, ha, -⟩ := Option.map_eq_some_iff.1 hu
      exact h.acp.head s a ha
  last s u hu := by
    rw [fromStr] at hu
    cases henv : reader.envelope s with
    | some env => exact h.envelope.last s env henv
    | none =>
      rw [henv] at hu
      obtain ⟨a, ha, -⟩ := Option.map_eq_some_iff.1 hu
      exact h.acp.last s a ha

theorem fromStr_trimJson (h : ReadsJson (fromStr reader)) (s : Str) :
    fromStr reader s = fromStr reader (trimJson s) := by
  obtain ⟨x, y, hs, hx, hy⟩ := strip_parts isJsonWhitespace s
  have hpad := h.pad x (trimJson s) y hx hy
  exact (congrArg (fromStr reader) hs).trans hpad

/-- A text that is read has no white space at its ends once that of JSON is stripped. -/
theorem not_isWhitespace_of_read (h : ReadsJson (fromStr reader)) {p : Char → Bool}
    (hp : ∀ c, isJsonWhitespace c = true → p c = true) (hu : fromStr reader (strip p s) = some u) :
    strip p s ≠ [] ∧ (∀ c ∈ (strip p s).head?, isWhitespace c = false) ∧
      ∀ c ∈ (strip p s).getLast?, isWhitespace c = false := by
  refine ⟨fun hnil => ?_, fun c hc => ?_, fun c hc => ?_⟩
  · rw [hnil, h.empty] at hu
    cases hu
  · by_contra hws
    have hjson := hp c (h.head _ u hu c hc (by simpa using hws))
    rw [strip_head p s hc] at hjson
    cases hjson
  · by_contra hws
    have hjson := hp c (h.last _ u hu c hc (by simpa using hws))
    rw [strip_last p s hc] at hjson
    cases hjson

/-- What is read after less is stripped is read after all is. -/
theorem strip_eq_trim_of_read (h : ReadsJson (fromStr reader)) {p : Char → Bool}
    (hp : ∀ c, isJsonWhitespace c = true → p c = true)
    (hws : ∀ c, p c = true → isWhitespace c = true) (hu : fromStr reader (strip p s) = some u) :
    trim s = strip p s := by
  obtain ⟨hne, hhead, hlast⟩ := not_isWhitespace_of_read h hp hu
  exact strip_eq_of_le hws hne hhead hlast

end Lines

section Pointwise

variable (reader : EnvelopeReader A X)

/-- A line as a replay reads it, -/
def replayedLine (line : Bytes) : Option (LoadedUpdate A X) := (fromUtf8 line).bind (fromStr reader)

/-- as `read_updates_jsonl` does, -/
def loadedLine (line : Bytes) : Option (LoadedUpdate A X) :=
  (fromUtf8 line).bind fun s => fromStr reader (strip isAsciiWhitespace s)

/-- and as the iterator does. -/
def iteratedLine (line : Bytes) : Option (LoadedUpdate A X) :=
  (fromUtf8 line).bind fun s => fromStr reader (trim s)

variable {reader} (h : ReadsJson (fromStr reader))
include h

theorem readUpdatesJsonl_eq (contents : Bytes) :
    readUpdatesJsonl reader contents = (splitNewlines contents).filterMap (loadedLine reader) := by
  rw [readUpdatesJsonl]
  congr 1
  funext line
  have hdecode : fromUtf8 (trimMatches isAsciiWhitespaceByte line) =
      (fromUtf8 line).map (strip isAsciiWhitespace) := by
    rw [trimMatches, fromUtf8_rdropWhile asciiTest_whitespace, fromUtf8_dropWhile asciiTest_whitespace,
      Option.map_map]
    rfl
  dsimp only
  rw [hdecode, loadedLine]
  cases hline : fromUtf8 line with
  | none => simp
  | some s =>
    split
    · next hnil =>
      rw [hnil, fromUtf8_nil, hline, Option.map_some, Option.some_inj] at hdecode
      rw [Option.bind_some, ← hdecode, h.empty]
    · rfl

theorem iteratedUpdates_eq (contents : Bytes) :
    iteratedUpdates reader contents = (splitNewlines contents).filterMap (iteratedLine reader) := by
  rw [iteratedUpdates, updatesIteratorItems, List.filterMap_filterMap]
  -- the item of a line, read with its newline or without
  have hitem : ∀ line, (match fromUtf8 line with
      | none => some none
      | some s => if trim s = [] then none else some (fromStr reader (trim s))).bind id =
        iteratedLine reader line := by
    intro line
    rw [iteratedLine]
    cases fromUtf8 line with
    | none => rfl
    | some s =>
      by_cases hblank : trim s = []
      · simp [hblank, h.empty]
      · simp [hblank]
  have hnewline : ∀ line, iteratedLine reader (line ++ [0x0a]) = iteratedLine reader line := by
    intro line
    rw [iteratedLine, iteratedLine, fromUtf8_concat (by decide)]
    cases fromUtf8 line with
    | none => rfl
    | some s =>
      change fromStr reader (trim (s ++ ['\n'])) = _
      rw [trim_append_of_right s (by decide)]
      rfl
  simp only [hitem]
  induction contents using newline_induction with
  | last x hx =>
    rw [byteLinesInclusive_last hx, splitNewlines_last hx]
    split
    · next hnil =>
      have hnone : iteratedLine reader [] = none := by
        rw [iteratedLine, fromUtf8_nil]
        exact h.empty
      simp [hnil, hnone]
    · rfl
  | line x t hx ih =>
    rw [byteLinesInclusive_line hx, splitNewlines_line hx, List.filterMap_cons, List.filterMap_cons,
      hnewline, ih]

theorem fromStr_of_blank {s : Str} (hblank : trim s = []) : fromStr reader s = none := by
  by_contra hread
  obtain ⟨u, hu⟩ := Option.ne_none_iff_exists'.1 hread
  rw [fromStr_trimJson h] at hu
  have hws : ∀ c, isJsonWhitespace c = true → isWhitespace c = true :=
    fun c hc => isWhitespace_of_ascii (isAsciiWhitespace_of_json hc)
  have heq := strip_eq_trim_of_read h (fun _ hc => hc) hws hu
  exact (not_isWhitespace_of_read h (fun _ hc => hc) hu).1 (heq.symm.trans hblank)

theorem fromStr_chompCr (s : Str) : fromStr reader (chompCr s) = fromStr reader s := by
  by_cases hcr : s.getLast? = some '\r'
  · obtain ⟨x, rfl⟩ := List.getLast?_eq_some_iff.1 hcr
    rw [chompCr_append]
    have hpad := h.pad [] x ['\r'] (by simp) (by simp [isJsonWhitespace])
    rw [List.nil_append] at hpad
    exact hpad.symm
  · rw [chompCr_of_ne hcr]

theorem replayedUpdates_eq {contents : Bytes} {raw : Str} (hraw : fromUtf8 contents = some raw) :
    replayedUpdates reader contents = (splitNewlines contents).filterMap (replayedLine reader) := by
  have hblank : ∀ ls : List Str, (ls.filter fun l => decide (trim l ≠ [])).filterMap (fromStr reader) =
      ls.filterMap (fromStr reader) := by
    intro ls
    rw [List.filterMap_filter]
    congr 1
    funext l
    split
    · rfl
    · next hl => exact (fromStr_of_blank h (by simpa using hl)).symm
  rw [replayedUpdates, hraw]
  dsimp only
  rw [hblank]
  induction contents using newline_induction generalizing raw with
  | last x hx =>
    have hnot : '\n' ∉ raw := by
      intro hmem
      obtain ⟨s, t, rfl⟩ := List.append_of_mem hmem
      rw [fromUtf8_eq_some_iff.1 hraw, encode_append] at hx
      exact hx (List.mem_append_right _ (List.mem_append_left _ (by decide)))
    rw [splitNewlines_last hx, List.filterMap_cons, replayedLine, hraw, Option.bind_some]
    by_cases hnil : raw = []
    · simp [hnil, h.empty]
    · rw [lines_last hnot hnil, List.filterMap_cons]
      rfl
  | line x t hx ih =>
    rw [fromUtf8_append_cons (by decide)] at hraw
    obtain ⟨s, hs, hrest⟩ := Option.bind_eq_some_iff.1 hraw
    obtain ⟨rest, ht, rfl⟩ := Option.map_eq_some_iff.1 hrest
    have hnot : '\n' ∉ s := by
      intro hmem
      obtain ⟨a, b, rfl⟩ := List.append_of_mem hmem
      rw [fromUtf8_eq_some_iff.1 hs, encode_append] at hx
      exact hx (List.mem_append_right _ (List.mem_append_left _ (by decide)))
    have hlines : Text.lines (s ++ asciiChar 0x0a :: rest) = chompCr s :: Text.lines rest :=
      lines_line hnot
    rw [hlines, splitNewlines_line hx, List.filterMap_cons, List.filterMap_cons, replayedLine, hs,
      Option.bind_some, fromStr_chompCr h, ih ht]

theorem replayedLine_le {line : Bytes} {u : LoadedUpdate A X}
    (hu : replayedLine reader line = some u) : loadedLine reader line = some u := by
  obtain ⟨s, hs, hread⟩ := Option.bind_eq_some_iff.1 hu
  rw [fromStr_trimJson h] at hread
  obtain ⟨hne, hhead, hlast⟩ := not_isWhitespace_of_read h (fun _ hc => hc) hread
  have hnot : ∀ c, isWhitespace c = false → isAsciiWhitespace c = false := by
    intro c hc
    by_contra hws
    rw [isWhitespace_of_ascii (by simpa using hws)] at hc
    cases hc
  have heq : strip isAsciiWhitespace s = trimJson s :=
    strip_eq_of_le (fun _ hc => isAsciiWhitespace_of_json hc) hne
      (fun c hc => hnot c (hhead c hc)) (fun c hc => hnot c (hlast c hc))
  rw [loadedLine, hs, Option.bind_some, heq, hread]

theorem loadedLine_le {line : Bytes} {u : LoadedUpdate A X} (hu : loadedLine reader line = some u) :
    iteratedLine reader line = some u := by
  obtain ⟨s, hs, hread⟩ := Option.bind_eq_some_iff.1 hu
  have heq := strip_eq_trim_of_read h (fun _ hc => isAsciiWhitespace_of_json hc)
    (fun _ hc => isWhitespace_of_ascii hc) hread
  rw [iteratedLine, hs, Option.bind_some, heq, hread]

/-- A record for the iterator is one for a replay if it is plainly spaced. -/
theorem replayedLine_eq_iff {line : Bytes} :
    replayedLine reader line = iteratedLine reader line ↔
      (HoldsRecord reader line → PlainlySpaced line) := by
  constructor
  · rintro heq ⟨s, hs, hsome⟩ s' hs'
    obtain rfl : s = s' := Option.some_inj.1 (hs.symm.trans hs')
    obtain ⟨u, hu⟩ := Option.isSome_iff_exists.1 hsome
    rw [replayedLine, iteratedLine, hs, Option.bind_some, Option.bind_some, hu,
      fromStr_trimJson h] at heq
    exact (strip_eq_trim_of_read h (fun _ hc => hc)
      (fun c hc => isWhitespace_of_ascii (isAsciiWhitespace_of_json hc)) heq).symm
  · intro hplain
    cases hs : fromUtf8 line with
    | none => rw [replayedLine, iteratedLine, hs]; rfl
    | some s =>
      cases hu : fromStr reader (trim s) with
      | none =>
        have hnone : iteratedLine reader line = none := by
          rw [iteratedLine, hs, Option.bind_some, hu]
        rw [hnone]
        by_contra hread
        obtain ⟨u, hread⟩ := Option.ne_none_iff_exists'.1 hread
        rw [loadedLine_le h (replayedLine_le h hread)] at hnone
        cases hnone
      | some u =>
        have heq := hplain ⟨s, hs, by rw [hu]; rfl⟩ s hs
        rw [replayedLine, iteratedLine, hs, Option.bind_some, Option.bind_some, fromStr_trimJson h, heq]

end Pointwise

section Agreement

variable {α β : Type} {f g : α → Option β}

theorem length_filterMap_mono {l : List α} (hle : ∀ a ∈ l, ∀ b, f a = some b → g a = some b) :
    (l.filterMap f).length ≤ (l.filterMap g).length := by
  induction l with
  | nil => exact le_rfl
  | cons a l ih =>
    have hrest := ih fun x hx => hle x (List.mem_cons_of_mem _ hx)
    rw [List.filterMap_cons, List.filterMap_cons]
    cases hf : f a with
    | none =>
      cases g a with
      | none => exact hrest
      | some b => exact hrest.trans (Nat.le_succ _)
    | some b =>
      rw [hle a List.mem_cons_self b hf]
      exact Nat.succ_le_succ hrest

/-- A reader that finds no more in any item finds the same list only if it finds the same in
each. -/
theorem filterMap_eq_iff {l : List α} (hle : ∀ a ∈ l, ∀ b, f a = some b → g a = some b) :
    l.filterMap f = l.filterMap g ↔ ∀ a ∈ l, f a = g a := by
  induction l with
  | nil => simp
  | cons a l ih =>
    have hrest : ∀ x ∈ l, ∀ b, f x = some b → g x = some b :=
      fun x hx => hle x (List.mem_cons_of_mem _ hx)
    rw [List.filterMap_cons, List.filterMap_cons, List.forall_mem_cons]
    refine Iff.trans ?_ (and_congr_right fun _ => ih hrest)
    cases hf : f a with
    | none =>
      cases hg : g a with
      | none => simp
      | some b =>
        refine iff_of_false (fun heq => ?_) fun hand => by (cases hand.1)
        have hlt := congrArg List.length heq
        have hle' := length_filterMap_mono hrest
        dsimp only at hlt
        rw [List.length_cons] at hlt
        omega
    | some b =>
      rw [hle a List.mem_cons_self b hf]
      simp

theorem isSome_fromUtf8_iff (contents : Bytes) :
    (fromUtf8 contents).isSome = true ↔ ∀ line ∈ splitNewlines contents, (fromUtf8 line).isSome = true := by
  induction contents using newline_induction with
  | last x hx => rw [splitNewlines_last hx, List.forall_mem_singleton]
  | line x t hx ih =>
    rw [splitNewlines_line hx, List.forall_mem_cons, ← ih, fromUtf8_append_cons (by decide)]
    cases fromUtf8 x with
    | none => simp
    | some s => simp

end Agreement

section Main

variable {reader : EnvelopeReader A X}

theorem holdsRecord_iff {line : Bytes} :
    HoldsRecord reader line ↔ (iteratedLine reader line).isSome = true := by
  rw [HoldsRecord, iteratedLine]
  cases fromUtf8 line with
  | none => simp
  | some s => simp

/-- The readers see the same records if and only if every line is UTF-8, or no line has a record,
and no record has white space around it that is not of JSON. -/
theorem readers_agree_iff (h : reader.Lawful) (contents : Bytes) :
    (readUpdatesJsonl reader contents = iteratedUpdates reader contents ∧
        iteratedUpdates reader contents = replayedUpdates reader contents) ↔
      ((∀ line ∈ splitNewlines contents, (fromUtf8 line).isSome = true) ∨
          ∀ line ∈ splitNewlines contents, ¬HoldsRecord reader line) ∧
        ∀ line ∈ splitNewlines contents, HoldsRecord reader line → PlainlySpaced line := by
  have hread := readsJson_fromStr h
  rw [readUpdatesJsonl_eq hread, iteratedUpdates_eq hread,
    filterMap_eq_iff fun _ _ _ => loadedLine_le hread]
  cases hraw : fromUtf8 contents with
  | some raw =>
    have hall : ∀ line ∈ splitNewlines contents, (fromUtf8 line).isSome = true :=
      (isSome_fromUtf8_iff contents).1 (by rw [hraw]; rfl)
    rw [replayedUpdates_eq hread hraw, @eq_comm _ (List.filterMap (iteratedLine reader) _),
      filterMap_eq_iff fun _ _ _ hu => loadedLine_le hread (replayedLine_le hread hu)]
    constructor
    · rintro ⟨-, hsame⟩
      exact ⟨.inl hall, fun line hline => (replayedLine_eq_iff hread).1 (hsame line hline)⟩
    · rintro ⟨-, hplain⟩
      have hsame := fun line hline => (replayedLine_eq_iff hread).2 (hplain line hline)
      refine ⟨fun line hline => ?_, hsame⟩
      -- what the replay reads is what the iterator reads, and the loader is in between
      cases hu : replayedLine reader line with
      | some u => rw [replayedLine_le hread hu, ← hsame line hline, hu]
      | none =>
        rw [← hsame line hline, hu]
        by_contra hne
        obtain ⟨u, hload⟩ := Option.ne_none_iff_exists'.1 hne
        have hiter := loadedLine_le hread hload
        rw [← hsame line hline, hu] at hiter
        cases hiter
  | none =>
    have hnot : ¬∀ line ∈ splitNewlines contents, (fromUtf8 line).isSome = true := by
      rw [← isSome_fromUtf8_iff, hraw]
      simp
    have hempty : replayedUpdates reader contents = [] := by rw [replayedUpdates, hraw]
    have hrecords : (splitNewlines contents).filterMap (iteratedLine reader) = [] ↔
        ∀ line ∈ splitNewlines contents, ¬HoldsRecord reader line := by
      rw [List.filterMap_eq_nil_iff]
      refine forall₂_congr fun line _ => ?_
      rw [holdsRecord_iff, Bool.not_eq_true, Option.isSome_eq_false_iff, Option.isNone_iff_eq_none]
    rw [hempty, hrecords]
    constructor
    · rintro ⟨-, hnone⟩
      exact ⟨.inr hnone, fun line hline hrec => absurd hrec (hnone line hline)⟩
    · rintro ⟨hvalid | hnone, -⟩
      · exact absurd hvalid hnot
      · refine ⟨fun line hline => ?_, hnone⟩
        have hiter : iteratedLine reader line = none := by
          have hrec := hnone line hline
          rwa [holdsRecord_iff, Bool.not_eq_true, Option.isSome_eq_false_iff,
            Option.isNone_iff_eq_none] at hrec
        rw [hiter]
        by_contra hne
        obtain ⟨u, hload⟩ := Option.ne_none_iff_exists'.1 hne
        rw [loadedLine_le hread hload] at hiter
        cases hiter

end Main

section Torn

theorem strip_pad {p : Char → Bool} {x y : Str} (hx : ∀ c ∈ x, p c = true) (hy : ∀ c ∈ y, p c = true)
    (s : Str) : strip p (x ++ s ++ y) = strip p s := by
  rw [strip, strip, List.append_assoc, List.dropWhile_append_of_pos hx]
  by_cases hnil : s.dropWhile p = []
  · have hs : ∀ c ∈ s, p c = true := List.dropWhile_eq_nil_iff.1 hnil
    have hall : ∀ c ∈ s ++ y, p c = true := List.forall_mem_append.2 ⟨hs, hy⟩
    rw [hnil, List.dropWhile_eq_nil_iff.2 hall]
  · rw [List.dropWhile_append, if_neg (by simpa using hnil), List.rdropWhile, List.reverse_append,
      List.dropWhile_append_of_pos fun a ha => hy a (List.mem_reverse.1 ha), ← List.rdropWhile]

/-- A reader of one text. -/
theorem readsJson_single {α : Type} (a : α) {text : Str} (hne : text ≠ [])
    (hhead : ∀ c ∈ text.head?, isWhitespace c = false)
    (hlast : ∀ c ∈ text.getLast?, isWhitespace c = false) :
    ReadsJson fun s => if trimJson s = text then some a else none where
  empty := if_neg fun h => hne h.symm
  pad x s y hx hy := by
    have heq : trimJson (x ++ s ++ y) = trimJson s := strip_pad hx hy s
    rw [heq]
  head s b hb c hc hws := by
    split at hb
    · next htext =>
      obtain ⟨x, y, hs, hx, -⟩ := strip_parts isJsonWhitespace s
      cases x with
      | cons d x =>
        rw [hs] at hc
        obtain rfl : d = c := by simpa using hc
        exact hx d (by simp)
      | nil =>
        have hstrip : strip isJsonWhitespace s = text := htext
        rw [hs, hstrip, List.nil_append, List.head?_append_of_ne_nil _ hne] at hc
        rw [hhead c hc] at hws
        cases hws
    · cases hb
  last s b hb c hc hws := by
    split at hb
    · next htext =>
      obtain ⟨x, y, hs, -, hy⟩ := strip_parts isJsonWhitespace s
      rcases List.eq_nil_or_concat y with rfl | ⟨y, d, rfl⟩
      · have hstrip : strip isJsonWhitespace s = text := htext
        rw [hs, hstrip, List.append_nil, List.getLast?_append_of_ne_nil _ hne] at hc
        rw [hlast c hc] at hws
        cases hws
      · rw [hs, List.concat_eq_append, ← List.append_assoc, List.getLast?_concat] at hc
        obtain rfl : d = c := by simpa using hc
        exact hy d (by simp)
    · cases hb

theorem readsJson_braces {α : Type} (a : α) {text : Str}
    (h : text.head? = some '\x7b' ∧ text.getLast? = some '\x7d') :
    ReadsJson fun s => if trimJson s = text then some a else none := by
  refine readsJson_single a (fun hnil => by rw [hnil] at h; cases h.1) (fun c hc => ?_) fun c hc => ?_
  · rw [h.1] at hc
    cases hc
    rfl
  · rw [h.2] at hc
    cases hc
    rfl

def planParams : Str :=
  "\x7b\"sessionId\":\"s\",\"update\":\x7b\"sessionUpdate\":\"plan\",\"entries\":[]\x7d\x7d".toList

def planLine : Str := "\x7b\"params\":".toList ++ planParams ++ "\x7d".toList

/-- The reader on one update. -/
def planReader : EnvelopeReader Str Str where
  envelope s := if trimJson s = planLine then some { params := planParams } else none
  acp s := if trimJson s = planParams then some "plan".toList else none
  xai _ := none

theorem lawful_planReader : planReader.Lawful where
  envelope := readsJson_braces _ (by decide +kernel)
  acp := readsJson_braces _ (by decide +kernel)

/-- The first byte of a character of two, torn from the second. -/
theorem fromUtf8_torn : fromUtf8 [0xc3] = none := by
  by_contra hne
  obtain ⟨s, hs⟩ := Option.ne_none_iff_exists'.1 hne
  rw [fromUtf8_eq_some_iff] at hs
  cases s with
  | nil => cases hs
  | cons c s =>
    rw [encode, List.flatMap_cons, String.utf8EncodeChar] at hs
    split at hs
    · next hle =>
      rw [List.cons_append, List.cons.injEq] at hs
      have hnat := congrArg UInt8.toNat hs.1
      rw [UInt8.toNat_ofNat_of_lt' (Nat.lt_of_le_of_lt hle (by decide))] at hnat
      have hlead : (0xc3 : UInt8).toNat = 195 := rfl
      omega
    split at hs
    · simp at hs
    split at hs
    · simp at hs
    · simp at hs

/-- A record after a line that was torn inside a character. -/
def tornFile : Bytes := [0xc3] ++ 0x0a :: encode planLine

theorem splitNewlines_tornFile : splitNewlines tornFile = [[0xc3], encode planLine] := by
  rw [tornFile, splitNewlines_line (by decide), splitNewlines_last]
  intro hmem
  obtain ⟨c, hc, hbyte⟩ := List.mem_flatMap.1 hmem
  obtain ⟨-, hchar⟩ := utf8EncodeChar_of_ascii (by decide) hbyte
  rw [hchar] at hc
  exact absurd hc (by decide)

theorem iteratedLine_planLine : iteratedLine planReader (encode planLine) = some (.acp "plan".toList) := by
  rw [iteratedLine, fromUtf8_encode]
  decide +kernel

/-- A replay of a file with one torn line sees no record of it. -/
theorem torn_line_hides_record :
    ¬∀ contents, readUpdatesJsonl planReader contents = iteratedUpdates planReader contents ∧
      iteratedUpdates planReader contents = replayedUpdates planReader contents := by
  intro h
  have hiter := iteratedUpdates_eq (readsJson_fromStr lawful_planReader) tornFile
  have hdecode : fromUtf8 tornFile = none := by
    rw [tornFile, fromUtf8_append_cons (by decide), fromUtf8_torn]
    rfl
  have hreplay : replayedUpdates planReader tornFile = [] := by rw [replayedUpdates, hdecode]
  have htorn : iteratedLine planReader [0xc3] = none := by rw [iteratedLine, fromUtf8_torn]; rfl
  rw [(h tornFile).2, hreplay, splitNewlines_tornFile, List.filterMap_cons, htorn,
    List.filterMap_cons, iteratedLine_planLine] at hiter
  cases hiter

/-- A file of one record and nothing else. -/
theorem readers_agree_plan :
    readUpdatesJsonl planReader (encode planLine) = iteratedUpdates planReader (encode planLine) ∧
      iteratedUpdates planReader (encode planLine) = replayedUpdates planReader (encode planLine) := by
  have hsplit : splitNewlines (encode planLine) = [encode planLine] := by
    have hsplit := splitNewlines_tornFile
    rw [tornFile, splitNewlines_line (by decide), List.cons.injEq] at hsplit
    exact hsplit.2
  refine (readers_agree_iff lawful_planReader _).2 ⟨.inl fun line hline => ?_, fun line hline _ s hs => ?_⟩
  · rw [hsplit, List.mem_singleton] at hline
    rw [hline, fromUtf8_encode]
    rfl
  · rw [hsplit, List.mem_singleton] at hline
    rw [hline, fromUtf8_encode, Option.some_inj] at hs
    rw [← hs]
    decide

end Torn

end GrokBuild.Transcript
