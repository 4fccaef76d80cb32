import GrokBuild.Lib.StepRun
import GrokBuild.Transcript.Readers

/-!
# Appending to a JSONL file

`session/storage/jsonl/mod.rs`: a record is appended with a newline behind it, and with one before
it where the file does not end in one. A write can stop at any byte. The readers take the file line
by line and pass over what they cannot read.
-/

namespace GrokBuild.Storage

open GrokBuild.Text GrokBuild.Transcript

section Append

/-- What goes wrong in an append: something before the write, the write itself with so many bytes
missing besides the last one, or a barrier behind it. A crash behind the write leaves what a failed
barrier leaves. -/
inductive Fault where
  | early
  | write (missing : ℕ)
  | barrier
  | none
deriving DecidableEq, Repr

/-- `AlreadyPresent` has the item that the file has for the generation. -/
inductive Answer (I : Type) where
  | notCommitted
  | committed
  | ok
  | alreadyPresent (item : I)
deriving DecidableEq, Repr

/-- The line that is written: a torn last line is ended first. -/
def healedLine (contents line : Bytes) : Bytes :=
  if contents ≠ [] ∧ contents.getLast? ≠ some 0x0a then 0x0a :: line else line

/-- What a write leaves of its line when so many bytes are missing. -/
def tornLine (line : Bytes) (missing : ℕ) : Bytes := line.take (line.length - missing)

/-- `write_all` and the barriers behind it. -/
def writeLine {I : Type} (contents line : Bytes) : Fault → Bytes × Answer I
  | .early => (contents, .notCommitted)
  | .write missing => (contents ++ tornLine line (missing + 1), .notCommitted)
  | .barrier => (contents ++ line, .committed)
  | .none => (contents ++ line, .ok)

def appendJsonlLine {I : Type} (contents text : Bytes) (fault : Fault) : Bytes × Answer I :=
  writeLine contents (healedLine contents (text ++ [0x0a])) fault

/-- The first line that reads as an item of the generation; the lines are read as they are. -/
def findCwdSwitchGeneration {I : Type} (readItem : Bytes → Option I) (generationOf : I → Option ℕ)
    (contents : Bytes) (generation : ℕ) : Option I :=
  (splitNewlines contents).findSome? fun line =>
    (readItem line).filter fun item => generationOf item = some generation

def appendCwdSwitchLine {I : Type} (readItem : Bytes → Option I) (generationOf : I → Option ℕ)
    (contents text : Bytes) (generation : ℕ) (fault : Fault) : Bytes × Answer I :=
  if fault = .early then (contents, .notCommitted)
  else
    match findCwdSwitchGeneration readItem generationOf contents generation with
    | some item => (contents, .alreadyPresent item)
    | none => writeLine contents (healedLine contents (text ++ [0x0a])) fault

/-- An append by one of the two routines; a generation is that of a working-directory switch. -/
structure Append where
  text : Bytes
  generation : Option ℕ := none
  fault : Fault := .none
deriving DecidableEq

def Append.run {I : Type} (readItem : Bytes → Option I) (generationOf : I → Option ℕ)
    (contents : Bytes) (append : Append) : Bytes × Answer I :=
  match append.generation with
  | none => appendJsonlLine contents append.text append.fault
  | some generation =>
    appendCwdSwitchLine readItem generationOf contents append.text generation append.fault

end Append

section Read

variable {R : Type}

def trimmedRead (read : Bytes → Option R) (line : Bytes) : Option R :=
  let line := trimMatches isAsciiWhitespaceByte line
  if line = [] then none else read line

/-- A reader that skips lines it cannot read. -/
def tolerantLines (read : Bytes → Option R) (contents : Bytes) : List R :=
  (splitNewlines contents).filterMap (trimmedRead read)

/-- `read_updates_jsonl` is such a reader. -/
theorem readUpdatesJsonl_eq_tolerantLines {A X : Type} (reader : EnvelopeReader A X)
    (contents : Bytes) :
    readUpdatesJsonl reader contents =
      tolerantLines (fun line => (fromUtf8 line).bind (fromStr reader)) contents := rfl

/-- A line that is read, and no part of it from the front is. -/
structure WholeLine (read : Bytes → Option R) (text : Bytes) : Prop where
  newline : (0x0a : UInt8) ∉ text
  reads : (read text).isSome = true
  torn : ∀ part, part <+: text → part ≠ text → read part = none

/-- The text of a JSON object. -/
structure IsRecord (read : Bytes → Option R) (text : Bytes) : Prop extends WholeLine read text where
  opens : text.head? = some 0x7b
  closes : text.getLast? = some 0x7d

/-- What reads as an item of the chat is read by the reader that trims the line. -/
def ReadsItems {I : Type} (read : Bytes → Option R) (readItem : Bytes → Option I) : Prop :=
  ∀ line item, readItem line = some item →
    trimMatches isAsciiWhitespaceByte line ≠ [] ∧
      (read (trimMatches isAsciiWhitespaceByte line)).isSome = true

end Read

section Lines

theorem splitNewlines_append_line (x t : Bytes) :
    splitNewlines (x ++ 0x0a :: t) = splitNewlines x ++ splitNewlines t := by
  induction x using newline_induction with
  | last x hx => rw [splitNewlines_line hx, splitNewlines_last hx]; rfl
  | line x s hx ih =>
    rw [List.append_assoc, List.cons_append, splitNewlines_line hx, splitNewlines_line hx, ih]
    rfl

/-- A text that does not end in the middle of a line. -/
def Closed (contents : Bytes) : Prop := contents ≠ [] → contents.getLast? = some 0x0a

theorem Closed.eq {contents : Bytes} (h : Closed contents) :
    contents = [] ∨ ∃ before, contents = before ++ [0x0a] := by
  rcases List.eq_nil_or_concat contents with hnil | ⟨before, last, heq⟩
  · exact .inl hnil
  · rw [List.concat_eq_append] at heq
    have hlast := h (by simp [heq])
    rw [heq, List.getLast?_concat, Option.some_inj] at hlast
    exact .inr ⟨before, by rw [heq, hlast]⟩

theorem healed_cases (contents line : Bytes) :
    (Closed contents ∧ healedLine contents line = line) ∨
      healedLine contents line = 0x0a :: line := by
  rw [healedLine]
  by_cases htorn : contents ≠ [] ∧ contents.getLast? ≠ some 0x0a
  · rw [if_pos htorn]
    exact .inr rfl
  · rw [if_neg htorn]
    exact .inl ⟨fun hne => by_contra fun hlast => htorn ⟨hne, hlast⟩, rfl⟩

theorem tornLine_cons (b : UInt8) (line : Bytes) (missing : ℕ) :
    tornLine (b :: line) missing =
      if missing ≤ line.length then b :: tornLine line missing else [] := by
  rw [tornLine, tornLine, List.length_cons]
  by_cases hle : missing ≤ line.length
  · rw [if_pos hle, Nat.succ_sub hle, List.take_succ_cons]
  · rw [if_neg hle, Nat.sub_eq_zero_of_le (by omega), List.take_zero]

variable {R : Type} {read : Bytes → Option R}

theorem filterMap_append_line (x t : Bytes) :
    (splitNewlines (x ++ 0x0a :: t)).filterMap read =
      (splitNewlines x).filterMap read ++ (splitNewlines t).filterMap read := by
  rw [splitNewlines_append_line, List.filterMap_append]

theorem filterMap_append_closed (hempty : read [] = none) {contents : Bytes} (h : Closed contents)
    (t : Bytes) :
    (splitNewlines (contents ++ t)).filterMap read =
      (splitNewlines contents).filterMap read ++ (splitNewlines t).filterMap read := by
  have hnil : (splitNewlines []).filterMap read = [] := by simp [splitNewlines, hempty]
  rcases h.eq with rfl | ⟨before, rfl⟩
  · rw [hnil]
    rfl
  · rw [List.append_assoc, List.singleton_append, filterMap_append_line, filterMap_append_line,
      hnil, List.append_nil]

end Lines

section Record

variable {R : Type} {read : Bytes → Option R} {text : Bytes}

/-- Of a line that is written in part nothing is read. -/
theorem WholeLine.read_part (h : WholeLine read text) {part : Bytes} (hpart : part <+: text) :
    (splitNewlines part).filterMap read = if part = text then (read text).toList else [] := by
  have hline : (0x0a : UInt8) ∉ part := fun hmem => h.newline (hpart.subset hmem)
  rw [splitNewlines_last hline]
  by_cases heq : part = text
  · rw [if_pos heq, heq]
    obtain ⟨r, hr⟩ := Option.isSome_iff_exists.1 h.reads
    simp [hr]
  · rw [if_neg heq]
    simp [h.torn part hpart heq]

theorem WholeLine.read_empty (h : WholeLine read text) (hne : text ≠ []) : read [] = none :=
  h.torn [] List.nil_prefix fun hnil => hne hnil.symm

/-- Of the line with its newline as much is read. -/
theorem WholeLine.read_take (h : WholeLine read text) (hne : text ≠ []) (j : ℕ) :
    (splitNewlines ((text ++ [0x0a]).take j)).filterMap read =
      if text.length ≤ j then (read text).toList else [] := by
  by_cases hlt : j < text.length
  · have hpart : text.take j ≠ text := fun hall => by
      have hlength := congrArg List.length hall
      rw [List.length_take] at hlength
      omega
    rw [List.take_append_of_le_length hlt.le, h.read_part (List.take_prefix j text),
      if_neg hpart, if_neg (Nat.not_le.2 hlt)]
  · have hwhole : (splitNewlines text).filterMap read = (read text).toList := by
      rw [h.read_part List.prefix_rfl, if_pos rfl]
    rw [if_pos (Nat.not_lt.1 hlt)]
    by_cases heq : j = text.length
    · rw [List.take_left' heq.symm, hwhole]
    · have hall : (text ++ [0x0a]).take j = text ++ [0x0a] :=
        List.take_of_length_le (by rw [List.length_append, List.length_singleton]; omega)
      rw [hall, filterMap_append_line, hwhole]
      simp [splitNewlines, h.read_empty hne]

/-- Whatever of a line is written behind a text is read beside what the text has: the line, if no
more than the newline is missing, or nothing. -/
theorem WholeLine.read_tornLine (h : WholeLine read text) (hne : text ≠ []) (contents : Bytes)
    (missing : ℕ) :
    (splitNewlines (contents ++ tornLine (healedLine contents (text ++ [0x0a])) missing)).filterMap
        read =
      (splitNewlines contents).filterMap read ++
        if missing ≤ 1 then (read text).toList else [] := by
  have hpos : 0 < text.length := List.length_pos_of_ne_nil hne
  have hlength : (text ++ [0x0a]).length = text.length + 1 := by simp
  have hread : (splitNewlines (tornLine (text ++ [0x0a]) missing)).filterMap read =
      if missing ≤ 1 then (read text).toList else [] := by
    rw [tornLine, h.read_take hne, hlength]
    by_cases hmissing : missing ≤ 1
    · rw [if_pos hmissing, if_pos (by omega)]
    · rw [if_neg hmissing, if_neg (by omega)]
  rcases healed_cases contents (text ++ [0x0a]) with ⟨hclosed, hline⟩ | hline
  · rw [hline, filterMap_append_closed (h.read_empty hne) hclosed, hread]
  · rw [hline, tornLine_cons]
    by_cases hle : missing ≤ (text ++ [0x0a]).length
    · rw [if_pos hle, filterMap_append_line, hread]
    · rw [if_neg hle, List.append_nil, if_neg (by omega), List.append_nil]

theorem WholeLine.lines_take (h : WholeLine read text) (j : ℕ) :
    ∀ line ∈ splitNewlines ((text ++ [0x0a]).take j), line <+: text := by
  intro line hline
  by_cases hle : j ≤ text.length
  · have hpart : text.take j <+: text := List.take_prefix j text
    rw [List.take_append_of_le_length hle,
      splitNewlines_last fun hmem => h.newline (hpart.subset hmem), List.mem_singleton] at hline
    rwa [hline]
  · have hall : (text ++ [0x0a]).take j = text ++ [0x0a] :=
      List.take_of_length_le (by rw [List.length_append, List.length_singleton]; omega)
    rw [hall, splitNewlines_line h.newline, List.mem_cons] at hline
    rcases hline with rfl | hnil
    · exact List.prefix_rfl
    · rw [List.mem_singleton.1 hnil]
      exact List.nil_prefix

theorem IsRecord.ne_nil (h : IsRecord read text) : text ≠ [] := by
  rintro rfl
  cases h.opens

/-- The white space behind a part of a record is all that a reader takes from it. -/
theorem IsRecord.trim_part (h : IsRecord read text) {part : Bytes} (hpart : part <+: text) :
    trimMatches isAsciiWhitespaceByte part <+: part ∧
      (part = text → trimMatches isAsciiWhitespaceByte part = text) := by
  have hstart : part.dropWhile isAsciiWhitespaceByte = part := by
    cases part with
    | nil => rfl
    | cons b part =>
      obtain ⟨rest, heq⟩ := hpart
      have hopens := h.opens
      rw [← heq, List.cons_append, List.head?_cons, Option.some_inj] at hopens
      rw [hopens]
      rfl
  rw [trimMatches, hstart]
  refine ⟨List.rdropWhile_prefix _ _, ?_⟩
  rintro rfl
  rw [List.rdropWhile_eq_self_iff]
  intro hne
  have hcloses := h.closes
  rw [List.getLast?_eq_some_getLast hne, Option.some_inj] at hcloses
  rw [hcloses]
  decide

theorem IsRecord.trimmedRead_text (h : IsRecord read text) : trimmedRead read text = read text := by
  rw [trimmedRead, (h.trim_part List.prefix_rfl).2 rfl, if_neg h.ne_nil]

/-- The reader that trims its lines reads a record, and no part of it. -/
theorem IsRecord.trimmedLine (h : IsRecord read text) : WholeLine (trimmedRead read) text where
  newline := h.newline
  reads := by
    rw [h.trimmedRead_text]
    exact h.reads
  torn part hpart hne := by
    obtain ⟨htrim, -⟩ := h.trim_part hpart
    have htorn : read (trimMatches isAsciiWhitespaceByte part) = none := by
      refine h.torn _ (htrim.trans hpart) fun hall => hne ?_
      exact hpart.eq_of_length_le (by rw [← hall]; exact htrim.length_le)
    rw [trimmedRead, htorn]
    exact ite_self _

theorem IsRecord.tolerantLines_tornLine (h : IsRecord read text) (contents : Bytes) (missing : ℕ) :
    tolerantLines read (contents ++ tornLine (healedLine contents (text ++ [0x0a])) missing) =
      tolerantLines read contents ++ if missing ≤ 1 then (read text).toList else [] := by
  rw [← h.trimmedRead_text]
  exact h.trimmedLine.read_tornLine h.ne_nil contents missing

/-- What is written of a record is on a line of its own, and the lines before it stay. -/
theorem WholeLine.splitNewlines_tornLine (h : WholeLine read text) (contents : Bytes)
    (missing : ℕ) {written : Bytes}
    (hwritten : written = contents ++ tornLine (healedLine contents (text ++ [0x0a])) missing) :
    (∀ line ∈ splitNewlines written, line ∈ splitNewlines contents ∨ line <+: text) ∧
      ∀ line ∈ splitNewlines contents, line ≠ [] → line ∈ splitNewlines written := by
  rw [hwritten]
  have hpart := h.lines_take ((text ++ [0x0a]).length - missing)
  rw [← tornLine] at hpart
  rcases healed_cases contents (text ++ [0x0a]) with ⟨hclosed, hline⟩ | hline
  · rw [hline]
    rcases hclosed.eq with rfl | ⟨before, rfl⟩
    · refine ⟨fun line hmem => .inr (hpart line hmem), fun line hmem hne => ?_⟩
      exact absurd (List.mem_singleton.1 hmem) hne
    · rw [List.append_assoc, List.singleton_append, splitNewlines_append_line,
        splitNewlines_append_line]
      refine ⟨fun line hmem => ?_, fun line hmem hne => ?_⟩
      · rcases List.mem_append.1 hmem with hbefore | hnew
        · exact .inl (List.mem_append_left _ hbefore)
        · exact .inr (hpart line hnew)
      · rcases List.mem_append.1 hmem with hbefore | hnil
        · exact List.mem_append_left _ hbefore
        · exact absurd (List.mem_singleton.1 hnil) hne
  · rw [hline, tornLine_cons]
    split
    · rw [splitNewlines_append_line]
      refine ⟨fun line hmem => ?_, fun line hmem _ => List.mem_append_left _ hmem⟩
      exact (List.mem_append.1 hmem).imp_right (hpart line)
    · rw [List.append_nil]
      exact ⟨fun line hmem => .inl hmem, fun line hmem _ => hmem⟩

end Record

section Run

variable {R I : Type} (read : Bytes → Option R) (readItem : Bytes → Option I)
  (generationOf : I → Option ℕ)

/-- The file behind the appends. -/
def fileAfter (contents : Bytes) (appends : List Append) : Bytes :=
  StepRun.run (fun contents append => (append.run readItem generationOf contents).1) contents
    appends

/-- The appends with what each returned. -/
def answered (contents : Bytes) : List Append → List (Append × Answer I)
  | [] => []
  | append :: appends =>
    (append, (append.run readItem generationOf contents).2) ::
      answered (append.run readItem generationOf contents).1 appends

/-- The record that an append leaves: its own if it returned `Ok` or `Committed`, and of the
failed ones that of a write which stopped before the final newline. -/
def leaves (append : Append) : Answer I → Option Bytes
  | .ok | .committed => some append.text
  | .notCommitted => if append.fault = .write 0 then some append.text else none
  | .alreadyPresent _ => none

/-- What the appends leave is what was there and their records, each once, in order and whole. A
switch that was there already is on a line that the readers read. Every line is one that was there
or a part of one record. -/
structure AppendsIntact (contents : Bytes) (appends : List Append) : Prop where
  records : tolerantLines read (fileAfter readItem generationOf contents appends) =
    tolerantLines read contents ++
      (answered readItem generationOf contents appends).filterMap fun answer =>
        (leaves answer.1 answer.2).bind read
  present : ∀ answer ∈ answered readItem generationOf contents appends, ∀ item,
    answer.2 = .alreadyPresent item →
      generationOf item = answer.1.generation ∧
        ∃ line ∈ splitNewlines (fileAfter readItem generationOf contents appends),
          readItem line = some item ∧
            ∃ r ∈ tolerantLines read (fileAfter readItem generationOf contents appends),
              read (trimMatches isAsciiWhitespaceByte line) = some r
  lines : ∀ line ∈ splitNewlines (fileAfter readItem generationOf contents appends),
    line ∈ splitNewlines contents ∨ ∃ append ∈ appends, line <+: append.text

end Run

section Steps

variable {R I : Type} {read : Bytes → Option R} {readItem : Bytes → Option I}
  {generationOf : I → Option ℕ} {contents : Bytes}

theorem writeLine_cases (append : Append) (contents line : Bytes) :
    (append.fault = .early ∧ (writeLine contents line append.fault : Bytes × Answer I) =
      (contents, .notCommitted)) ∨
    ∃ missing answer, (writeLine contents line append.fault : Bytes × Answer I) =
        (contents ++ tornLine line missing, answer) ∧
      (∀ item, answer ≠ .alreadyPresent item) ∧
      leaves append answer = if missing ≤ 1 then some append.text else none := by
  have hwhole : tornLine line 0 = line := List.take_length
  cases hfault : append.fault with
  | early => exact .inl ⟨rfl, rfl⟩
  | write missing =>
    refine .inr ⟨missing + 1, .notCommitted, rfl, fun item hanswer => by (cases hanswer), ?_⟩
    rw [leaves, hfault]
    cases missing with
    | zero => rfl
    | succ missing => rw [if_neg (by simp), if_neg (by omega)]
  | barrier =>
    refine .inr ⟨0, .committed, ?_, fun item hanswer => by (cases hanswer), rfl⟩
    rw [hwhole]
    rfl
  | none =>
    refine .inr ⟨0, .ok, ?_, fun item hanswer => by (cases hanswer), rfl⟩
    rw [hwhole]
    rfl

theorem findCwdSwitchGeneration_some {generation : ℕ} {item : I}
    (h : findCwdSwitchGeneration readItem generationOf contents generation = some item) :
    generationOf item = some generation ∧
      ∃ line ∈ splitNewlines contents, readItem line = some item := by
  obtain ⟨line, hmem, hline⟩ := List.exists_of_findSome?_eq_some h
  obtain ⟨hread, hgeneration⟩ := Option.filter_eq_some_iff.1 hline
  exact ⟨of_decide_eq_true hgeneration, line, hmem, hread⟩

/-- What an append can do: nothing, find the switch on a line of the file, or write its line as
far as it comes. -/
theorem Append.run_cases (readItem : Bytes → Option I) (generationOf : I → Option ℕ)
    (append : Append) (contents : Bytes) :
    (append.fault = .early ∧
      append.run readItem generationOf contents = (contents, .notCommitted)) ∨
    (∃ item, append.run readItem generationOf contents = (contents, .alreadyPresent item) ∧
      generationOf item = append.generation ∧
      ∃ line ∈ splitNewlines contents, readItem line = some item) ∨
    ∃ missing answer, append.run readItem generationOf contents =
        (contents ++ tornLine (healedLine contents (append.text ++ [0x0a])) missing, answer) ∧
      (∀ item, answer ≠ .alreadyPresent item) ∧
      leaves append answer = if missing ≤ 1 then some append.text else none := by
  have hwrite := writeLine_cases (I := I) append contents
    (healedLine contents (append.text ++ [0x0a]))
  rw [Append.run]
  cases hgeneration : append.generation with
  | none =>
    rcases hwrite with hearly | hwritten
    · exact .inl hearly
    · exact .inr (.inr hwritten)
  | some generation =>
    dsimp only
    rw [appendCwdSwitchLine]
    by_cases hearly : append.fault = .early
    · rw [if_pos hearly]
      exact .inl ⟨hearly, rfl⟩
    · rw [if_neg hearly]
      cases hfound : findCwdSwitchGeneration readItem generationOf contents generation with
      | some item => exact .inr (.inl ⟨item, rfl, findCwdSwitchGeneration_some hfound⟩)
      | none => exact .inr (.inr (hwrite.resolve_left fun h => hearly h.1))

/-- One append leaves what was there, and its record where it returns that it has. -/
theorem tolerantLines_run {append : Append} (h : IsRecord read append.text) (contents : Bytes) :
    tolerantLines read (append.run readItem generationOf contents).1 =
      tolerantLines read contents ++
        ((leaves append (append.run readItem generationOf contents).2).bind read).toList := by
  rcases append.run_cases readItem generationOf contents with
    ⟨hearly, hrun⟩ | ⟨item, hrun, -⟩ | ⟨missing, answer, hrun, -, hleaves⟩
  · simp [hrun, leaves, hearly]
  · simp [hrun, leaves]
  · rw [hrun, h.tolerantLines_tornLine, hleaves]
    by_cases hmissing : missing ≤ 1
    · rw [if_pos hmissing, if_pos hmissing, Option.bind_some]
    · rw [if_neg hmissing, if_neg hmissing]
      rfl

theorem splitNewlines_run (readItem : Bytes → Option I) (generationOf : I → Option ℕ)
    {append : Append} (h : IsRecord read append.text) (contents : Bytes) :
    (∀ line ∈ splitNewlines (append.run readItem generationOf contents).1,
      line ∈ splitNewlines contents ∨ line <+: append.text) ∧
    ∀ line ∈ splitNewlines contents, line ≠ [] →
      line ∈ splitNewlines (append.run readItem generationOf contents).1 := by
  rcases append.run_cases readItem generationOf contents with
    ⟨-, hrun⟩ | ⟨item, hrun, -⟩ | ⟨missing, answer, hrun, -⟩
  · rw [hrun]
    exact ⟨fun line hmem => .inl hmem, fun line hmem _ => hmem⟩
  · rw [hrun]
    exact ⟨fun line hmem => .inl hmem, fun line hmem _ => hmem⟩
  · rw [hrun]
    exact h.toWholeLine.splitNewlines_tornLine contents missing rfl

theorem fileAfter_cons (readItem : Bytes → Option I) (generationOf : I → Option ℕ)
    (contents : Bytes) (append : Append) (appends : List Append) :
    fileAfter readItem generationOf contents (append :: appends) =
      fileAfter readItem generationOf (append.run readItem generationOf contents).1 appends := rfl

/-- Lines that are there stay. -/
theorem splitNewlines_fileAfter (readItem : Bytes → Option I) (generationOf : I → Option ℕ)
    {appends : List Append} (h : ∀ append ∈ appends, IsRecord read append.text) (contents : Bytes) :
    ∀ line ∈ splitNewlines contents, line ≠ [] →
      line ∈ splitNewlines (fileAfter readItem generationOf contents appends) := by
  induction appends generalizing contents with
  | nil => exact fun line hmem _ => hmem
  | cons append appends ih =>
    intro line hmem hne
    have hstep := (splitNewlines_run readItem generationOf (h append (List.mem_cons_self ..))
      contents).2 line hmem hne
    exact ih (fun append hmem => h append (List.mem_cons_of_mem _ hmem)) _ line hstep hne

/-- Appends to a file leave every record that is there and was acknowledged, whatever goes wrong
between them. -/
theorem appendsIntact (readItem : Bytes → Option I) (generationOf : I → Option ℕ) (contents : Bytes)
    (appends : List Append) (h : ∀ append ∈ appends, IsRecord read append.text)
    (hitems : ReadsItems read readItem) :
    AppendsIntact read readItem generationOf contents appends := by
  induction appends generalizing contents with
  | nil =>
    exact ⟨(List.append_nil _).symm, fun answer hmem => by (cases hmem),
      fun line hmem => .inl hmem⟩
  | cons append appends ih =>
    have hrecord := h append (List.mem_cons_self ..)
    have hrest := ih (append.run readItem generationOf contents).1
      fun append hmem => h append (List.mem_cons_of_mem _ hmem)
    refine ⟨?_, fun answer hmem item hpresent => ?_, fun line hmem => ?_⟩
    · have hrecords := hrest.records
      rw [tolerantLines_run hrecord, List.append_assoc] at hrecords
      rw [fileAfter_cons, hrecords, answered, List.filterMap_cons]
      congr 1
      cases (leaves append (append.run readItem generationOf contents).2).bind read with
      | none => rfl
      | some r => rfl
    · rcases List.mem_cons.1 hmem with rfl | hlater
      · rcases append.run_cases readItem generationOf contents with
          ⟨-, hrun⟩ | ⟨item', hrun, hgeneration, line, hline, hread⟩ |
          ⟨missing, answer, hrun, hne, -⟩
        · rw [hrun] at hpresent
          cases hpresent
        · rw [hrun] at hpresent
          obtain rfl : item' = item := Answer.alreadyPresent.inj hpresent
          -- the line that was found stays
          have hline' : line ∈ splitNewlines (append.run readItem generationOf contents).1 := by
            rw [hrun]
            exact hline
          obtain ⟨htrimmed, hsome⟩ := hitems line item' hread
          have hstays := splitNewlines_fileAfter readItem generationOf
            (fun append hmem => h append (List.mem_cons_of_mem _ hmem)) _ line hline'
            fun hnil => htrimmed (by rw [hnil]; rfl)
          obtain ⟨r, hr⟩ := Option.isSome_iff_exists.1 hsome
          refine ⟨hgeneration, line, hstays, hread, r, ?_, hr⟩
          exact List.mem_filterMap.2 ⟨line, hstays, by rw [trimmedRead, if_neg htrimmed, hr]⟩
        · rw [hrun] at hpresent
          exact absurd hpresent (hne item)
      · exact hrest.present answer hlater item hpresent
    · rcases hrest.lines line hmem with hthere | ⟨later, hlater, hpart⟩
      · rcases (splitNewlines_run readItem generationOf hrecord contents).1 line hthere with
          hbefore | hpart
        · exact .inl hbefore
        · exact .inr ⟨append, List.mem_cons_self .., hpart⟩
      · exact .inr ⟨later, List.mem_cons_of_mem _ hlater, hpart⟩

/-- Two objects that differ in their one digit, and a reader of the two. -/
def digitObject (digit : UInt8) : Bytes := [0x7b, digit, 0x7d]

def readDigit (line : Bytes) : Option UInt8 :=
  if line = digitObject 0x31 then some 0x31
  else if line = digitObject 0x32 then some 0x32
  else none

theorem isRecord_digitObject {digit : UInt8} (h : digit = 0x31 ∨ digit = 0x32) :
    IsRecord readDigit (digitObject digit) where
  opens := rfl
  closes := rfl
  newline := by rcases h with rfl | rfl <;> decide
  reads := by rcases h with rfl | rfl <;> decide
  torn part hpart hne := by
    have hshort : part.length < 3 := by
      refine lt_of_le_of_ne hpart.length_le fun hlength => hne ?_
      exact hpart.eq_of_length hlength
    rw [readDigit, if_neg, if_neg]
    · rintro rfl
      exact absurd hshort (by decide)
    · rintro rfl
      exact absurd hshort (by decide)

theorem readsItems_digits : ReadsItems readDigit readDigit := by
  intro line digit hread
  rw [readDigit] at hread
  split at hread
  · next heq =>
    rw [heq]
    decide
  · split at hread
    · next heq =>
      rw [heq]
      decide
    · cases hread

/-- A torn write between two records hides neither, and a switch is found that is there. -/
theorem appendsIntact_torn_between :
    AppendsIntact readDigit readDigit (fun digit => some digit.toNat) []
      [⟨digitObject 0x31, none, .none⟩, ⟨digitObject 0x32, none, .write 2⟩,
        ⟨digitObject 0x32, some 0x32, .write 0⟩, ⟨digitObject 0x32, some 0x32, .none⟩] :=
  appendsIntact readDigit (fun digit => some digit.toNat) [] _ (fun append hmem => by
    simp only [List.mem_cons, List.not_mem_nil, or_false] at hmem
    rcases hmem with rfl | rfl | rfl | rfl
    · exact isRecord_digitObject (.inl rfl)
    · exact isRecord_digitObject (.inr rfl)
    · exact isRecord_digitObject (.inr rfl)
    · exact isRecord_digitObject (.inr rfl)) readsItems_digits

end Steps

end GrokBuild.Storage
