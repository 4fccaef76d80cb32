import GrokBuild.Transcript.Runs

/-!
# Extracted prompts against kept runs

Prompt extraction follows the same counting rules as the rewind filter, but it does not see
image and command chunks, and it drops blank prompts before it applies the index of a rewind.
The two lists of prompts agree on a transcript and all its beginnings exactly when no line
comes at a place where one of these differences shows.
-/

namespace GrokBuild.Transcript

open GrokBuild.Text

section Definitions

def Line.isTextChunk (line : Line) : Bool :=
  match parsePromptExtractEvent line with
  | .userTextChunk _ _ => true
  | _ => false

/-- What a line adds to the text of its run. -/
def Line.chunkText (line : Line) : Str :=
  match parsePromptExtractEvent line with
  | .userTextChunk text _ => text
  | _ => []

def runText (lines : List Line) : Str := lines.flatMap Line.chunkText

def Blank (s : Str) : Prop := trim s = []

instance (s : Str) : Decidable (Blank s) := inferInstanceAs (Decidable (trim s = []))

/-- The prompt that a text is, if it is not blank. -/
def promptOf (text : Str) : List Str := if Blank text then [] else [trim text]

def promptsOf (runs : List (CountedRun Line)) : List Str :=
  runs.flatMap fun run => promptOf (runText run.lines)

/-- The prompts of the runs that the rewind filter counted and kept. -/
def keptPrompts (lines : List Line) : List Str := promptsOf (keptRuns lines).runs

def extractedPrompts (lines : List Line) : List Str :=
  collectPromptsFromEvents (lines.map parsePromptExtractEvent)

/-- The text of a run up to its last chunk that is not a text. -/
def settledText (lines : List Line) : Str := runText (lines.rdropWhile Line.isTextChunk)

/-- The text after it. -/
def openText (lines : List Line) : Str := runText (lines.rtakeWhile Line.isTextChunk)

/-- A rewind cuts before a prompt with text, and of the prompts it passes over one is blank. -/
def MiscountsRewind (before : List Line) (target : ℕ) : Prop :=
  (∃ run ∈ (keptRuns before).runs.take target, Blank (runText run.lines)) ∧
    ∃ run ∈ (keptRuns before).runs.drop target, ¬Blank (runText run.lines)

/-- A chunk continues a counted run that has text before an image or command chunk. -/
def SplitsRun (before : List Line) (promptIndex : Option ℕ) : Prop :=
  (keptRuns before).counting = true ∧ (keptRuns before).tracker.newRun promptIndex = false ∧
    ∃ run, (keptRuns before).runs.getLast? = some run ∧ ¬Blank (settledText run.lines)

/-- An unmarked chunk, of which only chunks without text were marked before. -/
def MissesMarker (before : List Line) (promptIndex : Option ℕ) : Prop :=
  promptIndex = none ∧ (∀ l ∈ before, l.isTextChunk = true → l.promptIndex = none) ∧
    ∃ l ∈ before, ∃ i, rewindStepForLine l = .userChunk (some i)

/-- The line comes where the two ways to count part. -/
def Drifts (before : List Line) (line : Line) : Prop :=
  match rewindStepForLine line with
  | .rewind target => MiscountsRewind before target
  | .userChunk promptIndex =>
    line.isTextChunk = true ∧ ¬Blank line.chunkText ∧
      (SplitsRun before promptIndex ∨ MissesMarker before promptIndex)
  | .other => False

end Definitions

section Texts

variable {x y : Str} {lines : List Line} {line : Line}

theorem promptOf_blank (h : Blank x) : promptOf x = [] := if_pos h

theorem promptOf_not_blank (h : ¬Blank x) : promptOf x = [trim x] := if_neg h

theorem blank_append : Blank (x ++ y) ↔ Blank x ∧ Blank y := trim_append_eq_nil_iff

theorem promptOf_append (h : Blank x ∨ Blank y) : promptOf (x ++ y) = promptOf x ++ promptOf y := by
  rcases h with h | h
  · rw [promptOf_blank h, List.nil_append, promptOf, promptOf, trim_append_of_left h]
    exact if_congr (by rw [Blank, trim_append_of_left h, Blank]) rfl rfl
  · rw [promptOf_blank h, List.append_nil, promptOf, promptOf, trim_append_of_right x h]
    exact if_congr (by rw [Blank, trim_append_of_right x h, Blank]) rfl rfl

/-- Two prompts are not one. -/
theorem promptOf_append_ne (hx : ¬Blank x) (hy : ¬Blank y) :
    promptOf (x ++ y) ≠ promptOf x ++ promptOf y := by
  rw [promptOf_not_blank hx, promptOf_not_blank hy,
    promptOf_not_blank fun h => hx (blank_append.1 h).1]
  simp

theorem runText_append (lines lines' : List Line) :
    runText (lines ++ lines') = runText lines ++ runText lines' := List.flatMap_append

theorem settledText_append_openText (lines : List Line) :
    settledText lines ++ openText lines = runText lines := by
  rw [settledText, openText, ← runText_append, List.rdropWhile_append_rtakeWhile]

theorem settledText_concat_text (h : line.isTextChunk = true) :
    settledText (lines ++ [line]) = settledText lines := by
  rw [settledText, List.rdropWhile_concat_pos _ _ _ h, settledText]

theorem openText_concat_text (h : line.isTextChunk = true) :
    openText (lines ++ [line]) = openText lines ++ line.chunkText := by
  rw [openText, List.rtakeWhile_concat_pos _ _ _ h, runText_append, openText]
  simp [runText]

theorem chunkText_of_not_text (h : line.isTextChunk = false) : line.chunkText = [] := by
  rw [Line.isTextChunk] at h
  rw [Line.chunkText]
  split
  · next heq => rw [heq] at h; cases h
  · rfl

theorem settledText_concat_other (h : line.isTextChunk = false) :
    settledText (lines ++ [line]) = runText lines := by
  rw [settledText, List.rdropWhile_concat_neg _ _ _ (by simp [h]), runText_append]
  simp [runText, chunkText_of_not_text h]

theorem openText_concat_other (h : line.isTextChunk = false) : openText (lines ++ [line]) = [] := by
  rw [openText, List.rtakeWhile_concat_neg _ _ _ (by simp [h])]
  rfl

end Texts

section Events

variable {line : Line} {text : Str} {promptIndex : Option ℕ} {target : ℕ}

theorem rewindStepForLine_of_text (h : parsePromptExtractEvent line = .userTextChunk text promptIndex) :
    rewindStepForLine line = .userChunk promptIndex := by
  rw [parsePromptExtractEvent] at h
  split at h
  · next hxai htag =>
    split at h
    · cases h
    · split at h
      · cases h
      · next hhost =>
        obtain ⟨-, rfl⟩ := PromptExtractEvent.userTextChunk.inj h
        have hnot : line.isHostTurn = false := by
          rw [Line.isHostTurn]
          cases hmeta : line.chunkMeta.bind (·.hostTurn) with
          | none => rfl
          | some b =>
            rw [hmeta] at hhost
            cases b with
            | true => exact absurd rfl hhost
            | false => rfl
        simp [rewindStepForLine, hxai, htag, hnot]
  · split at h <;> cases h
  · cases h

theorem parsePromptExtractEvent_rewind_iff :
    parsePromptExtractEvent line = .rewindTo target ↔ rewindStepForLine line = .rewind target := by
  rw [parsePromptExtractEvent, rewindStepForLine]
  cases hxai : line.isXai <;> cases htag : line.tag <;> cases htarget : line.targetPromptIndex <;>
    simp only [reduceCtorEq, iff_self, PromptExtractEvent.rewindTo.injEq, RewindStep.rewind.injEq]
  all_goals
    split
    · split <;> simp
    · split <;> split <;> simp

/-- The line is a text of the user to both, a rewind to both, or no text to the extraction. -/
theorem parsePromptExtractEvent_cases (line : Line) :
    (∃ promptIndex, parsePromptExtractEvent line = .userTextChunk line.chunkText promptIndex ∧
      line.isTextChunk = true ∧ rewindStepForLine line = .userChunk promptIndex ∧
      line.promptIndex = promptIndex) ∨
    (∃ target, parsePromptExtractEvent line = .rewindTo target ∧
      rewindStepForLine line = .rewind target) ∨
    parsePromptExtractEvent line = .notUserMessage ∧ line.isTextChunk = false ∧
      ∀ target, rewindStepForLine line ≠ .rewind target := by
  cases hevent : parsePromptExtractEvent line with
  | userTextChunk text promptIndex =>
    have hstep := rewindStepForLine_of_text hevent
    have hindex : line.promptIndex = promptIndex := by
      rw [rewindStepForLine] at hstep
      split at hstep
      · cases hstep
      · split at hstep
        · cases hstep
        · exact RewindStep.userChunk.inj hstep
      · cases hstep
    exact .inl ⟨promptIndex, by simp [Line.chunkText, hevent], by simp [Line.isTextChunk, hevent],
      hstep, hindex⟩
  | rewindTo target =>
    exact .inr (.inl ⟨target, rfl, parsePromptExtractEvent_rewind_iff.1 hevent⟩)
  | notUserMessage =>
    refine .inr (.inr ⟨rfl, by simp [Line.isTextChunk, hevent], fun target hstep => ?_⟩)
    rw [parsePromptExtractEvent_rewind_iff.2 hstep] at hevent
    cases hevent

end Events

section Collector

variable {c : PromptCollector} {text : Str} {promptIndex : Option ℕ}

/-- The counting state of the extraction. -/
def PromptCollector.tracker (c : PromptCollector) : UserRunTurnTracker :=
  ⟨c.seenMarker, c.inUser, c.currentRunPi⟩

theorem flush_prompts (c : PromptCollector) :
    c.flush.prompts =
      c.prompts ++ if c.inUser ∧ c.currentCounts then promptOf c.current else [] := by
  rw [PromptCollector.flush, promptOf]
  cases c.inUser <;> cases c.currentCounts <;> by_cases hblank : Blank c.current <;>
    simp_all [Blank]

theorem flush_fields (c : PromptCollector) (h : c.inUser = false → c.current = []) :
    c.flush.current = [] ∧ c.flush.inUser = false ∧ c.flush.seenMarker = c.seenMarker := by
  rw [PromptCollector.flush]
  split
  · exact ⟨rfl, rfl, rfl⟩
  · next hin => exact ⟨h (by simpa using hin), by simpa using hin, rfl⟩

theorem step_new (h : c.tracker.newRun promptIndex = true) :
    c.step (.userTextChunk text promptIndex) =
      { c.flush with
        inUser := true, currentRunPi := promptIndex
        currentCounts := c.tracker.counts promptIndex
        current := c.flush.current ++ text, seenMarker := c.tracker.sees promptIndex } := if_pos h

theorem step_same (h : c.tracker.newRun promptIndex = false) :
    c.step (.userTextChunk text promptIndex) =
      { c with current := c.current ++ text, seenMarker := c.tracker.sees promptIndex } := by
  have hin : c.inUser = true := by
    by_contra hnot
    simp [UserRunTurnTracker.newRun, PromptCollector.tracker, hnot] at h
  have hpi : (c.currentRunPi.isNone && promptIndex.isSome) = false := by
    cases promptIndex with
    | none => simp
    | some i =>
      have heq : some i = c.currentRunPi := by
        simpa [UserRunTurnTracker.newRun, UserRunTurnTracker.sees, PromptCollector.tracker, hin]
          using h
      simp [← heq]
  exact (if_neg (ne_true_of_eq_false h)).trans (if_neg (ne_true_of_eq_false hpi))

end Collector

section Follow

variable {e : PromptCollector} {f : KeptRuns Line} {line : Line} {promptIndex : Option ℕ}

/-- What the extraction has collected, as long as it agrees with the filter. -/
structure Follows (e : PromptCollector) (f : KeptRuns Line) : Prop where
  seen : e.seenMarker = true → f.tracker.seenMarker = true
  unseen : e.seenMarker = false → e.inUser = true →
    e.currentRunPi = none ∧ e.currentCounts = true
  outside : e.inUser = false → e.current = []
  inside : e.inUser = true →
    f.tracker.inUser = true ∧ e.currentRunPi = f.tracker.currentRunPi
  counted : f.counting = true → ∃ init lines, f.runs = init ++ [{ lines := lines }] ∧
    e.prompts = promptsOf init ++ promptOf (settledText lines) ∧ e.current = openText lines ∧
      (e.inUser = true → e.currentCounts = true)
  uncounted : f.counting = false → e.prompts = promptsOf f.runs ∧
    (e.inUser = true → e.currentCounts = true → e.seenMarker = false)

/-- The run in progress has not become two prompts, and is none if it is not counted. -/
structure Clear (e : PromptCollector) (f : KeptRuns Line) : Prop where
  counted : f.counting = true → ∀ run, f.runs.getLast? = some run →
    Blank (settledText run.lines) ∨ Blank (openText run.lines)
  uncounted : f.counting = false → e.inUser = true → e.currentCounts = true → Blank e.current

theorem promptsOf_append (runs runs' : List (CountedRun Line)) :
    promptsOf (runs ++ runs') = promptsOf runs ++ promptsOf runs' := List.flatMap_append

theorem promptsOf_concat (runs : List (CountedRun Line)) (lines after : List Line) :
    promptsOf (runs ++ [{ lines := lines, after := after }]) =
      promptsOf runs ++ promptOf (runText lines) := by
  simp [promptsOf]

theorem promptsOf_addAfter (f : KeptRuns Line) (line : Line) :
    promptsOf (f.addAfter line).runs = promptsOf f.runs := by
  rcases List.eq_nil_or_concat f.runs with hnil | ⟨init, run, heq⟩
  · simp [KeptRuns.addAfter, hnil]
  · rw [List.concat_eq_append] at heq
    simp [KeptRuns.addAfter, heq, promptsOf]

theorem blank_nil : Blank [] := rfl

theorem Follows.flush_prompts_eq_iff (h : Follows e f) :
    e.flush.prompts = promptsOf f.runs ↔ Clear e f := by
  rw [flush_prompts]
  cases hc : f.counting with
  | true =>
    obtain ⟨init, lines, hruns, hprompts, hcurrent, hcounts⟩ := h.counted hc
    -- the flushed text is the open part of the run, also where it is empty
    have hflush : (if e.inUser ∧ e.currentCounts then promptOf e.current else []) =
        promptOf (openText lines) := by
      cases hin : e.inUser with
      | true => rw [if_pos ⟨rfl, hcounts hin⟩, hcurrent]
      | false =>
        rw [if_neg fun hand => Bool.false_ne_true hand.1, ← hcurrent, h.outside hin]
        exact (promptOf_blank blank_nil).symm
    rw [hflush, hprompts, hruns, promptsOf_concat, List.append_assoc, List.append_cancel_left_eq,
      ← settledText_append_openText]
    constructor
    · intro heq
      refine ⟨fun _ run hrun => ?_, fun hnot => by (rw [hc] at hnot; cases hnot)⟩
      rw [hruns, List.getLast?_concat, Option.some_inj] at hrun
      subst hrun
      by_contra hboth
      rw [not_or] at hboth
      exact promptOf_append_ne hboth.1 hboth.2 heq.symm
    · intro hclear
      have hlast : f.runs.getLast? = some { lines := lines } := by
        rw [hruns, List.getLast?_concat]
      exact (promptOf_append (hclear.counted hc _ hlast)).symm
  | false =>
    rw [(h.uncounted hc).1, List.append_right_eq_self]
    constructor
    · intro hnil
      refine ⟨fun hnot => by (rw [hc] at hnot; cases hnot), fun _ hin hcounts => ?_⟩
      rw [if_pos ⟨hin, hcounts⟩] at hnil
      by_contra hblank
      rw [promptOf_not_blank hblank] at hnil
      cases hnil
    · intro hclear
      split
      · next hand => exact promptOf_blank (hclear.uncounted hc hand.1 hand.2)
      · rfl

/-- Between two runs of the extraction. -/
theorem Follows.of_outside {e' : PromptCollector} {f' : KeptRuns Line}
    (hin : e'.inUser = false) (hcurrent : e'.current = [])
    (hseen : e'.seenMarker = true → f'.tracker.seenMarker = true)
    (hcounted : f'.counting = true → ∃ init lines, f'.runs = init ++ [{ lines := lines }] ∧
      e'.prompts = promptsOf init ++ promptOf (settledText lines) ∧ openText lines = [])
    (huncounted : f'.counting = false → e'.prompts = promptsOf f'.runs) :
    Follows e' f' ∧ Clear e' f' := by
  have hnot : ∀ {P : Prop}, e'.inUser = true → P := by
    intro P h
    rw [hin] at h
    cases h
  refine ⟨⟨hseen, fun _ => hnot, fun _ => hcurrent, hnot, fun hc => ?_,
    fun hc => ⟨huncounted hc, hnot⟩⟩, fun hc run hrun => ?_, fun _ => hnot⟩
  · obtain ⟨init, lines, hruns, hprompts, hopen⟩ := hcounted hc
    exact ⟨init, lines, hruns, hprompts, hcurrent.trans hopen.symm, hnot⟩
  · obtain ⟨init, lines, hruns, -, hopen⟩ := hcounted hc
    rw [hruns, List.getLast?_concat, Option.some_inj] at hrun
    subst hrun
    exact .inr (by rw [hopen]; exact blank_nil)

/-- A line that is no text of the user, and no rewind. -/
theorem Follows.flush_step (h : Follows e f) (hclear : Clear e f) (hf : f.Counting)
    (htext : line.isTextChunk = false) (hstep : ∀ target, rewindStepForLine line ≠ .rewind target) :
    Follows e.flush (f.step rewindStepForLine line) ∧
      Clear e.flush (f.step rewindStepForLine line) := by
  have hprompts := h.flush_prompts_eq_iff.2 hclear
  obtain ⟨hcurrent, hin, hseen⟩ := flush_fields e h.outside
  cases hline : rewindStepForLine line with
  | rewind target => exact absurd hline (hstep target)
  | other =>
    rw [KeptRuns.step, hline]
    refine Follows.of_outside hin hcurrent (fun hs => h.seen (hseen ▸ hs)) (fun hc => by (cases hc)) fun _ => ?_
    exact hprompts.trans (promptsOf_addAfter f line).symm
  | userChunk promptIndex =>
    rcases hf.step_userChunk hline with ⟨-, -, -, heq⟩ | ⟨hc, -, -, heq⟩ | ⟨-, -, -, heq⟩
    · rw [heq]
      refine Follows.of_outside hin hcurrent (fun hs => ?_) (fun _ => ⟨f.runs, [line], rfl, ?_, ?_⟩)
        fun hc => by (cases hc)
      · simp [UserRunTurnTracker.sees, h.seen (hseen ▸ hs)]
      · rw [hprompts, ← List.nil_append [line], settledText_concat_other htext]
        simp [runText, promptOf_blank blank_nil]
      · rw [← List.nil_append [line], openText_concat_other htext]
    · obtain ⟨init, lines, hruns, -⟩ := h.counted hc
      rw [heq, KeptRuns.addLine_eq hruns]
      refine Follows.of_outside hin hcurrent (fun hs => h.seen (hseen ▸ hs))
        (fun _ => ⟨init, lines ++ [line], rfl, ?_, openText_concat_other htext⟩) fun hnot => ?_
      · rw [hprompts, hruns, promptsOf_concat, settledText_concat_other htext]
      · rw [hc] at hnot
        cases hnot
    · rw [heq]
      refine Follows.of_outside hin hcurrent (fun _ => rfl) (fun hc => by (cases hc)) fun _ => ?_
      exact hprompts.trans (promptsOf_addAfter f line).symm

/-- A text opens a counted run. -/
theorem Follows.step_opens (h : Follows e f) (hclear : Clear e f) {text : Str}
    (htext : line.isTextChunk = true) (hchunk : line.chunkText = text)
    (hseen : f.tracker.seenMarker = true → promptIndex.isSome = true)
    (hin : f.tracker.inUser = true →
      promptIndex.isSome = true ∧ promptIndex ≠ f.tracker.currentRunPi) :
    Follows (e.step (.userTextChunk text promptIndex))
        { f with runs := f.runs ++ [{ lines := [line] }], counting := true
                 tracker := ⟨f.tracker.sees promptIndex, true, promptIndex⟩ } ∧
      Clear (e.step (.userTextChunk text promptIndex))
        { f with runs := f.runs ++ [{ lines := [line] }], counting := true
                 tracker := ⟨f.tracker.sees promptIndex, true, promptIndex⟩ } := by
  have hnew : e.tracker.newRun promptIndex = true := by
    cases hine : e.inUser with
    | false => simp [UserRunTurnTracker.newRun, PromptCollector.tracker, hine]
    | true =>
      obtain ⟨hinf, hpi⟩ := h.inside hine
      obtain ⟨hsome, hne⟩ := hin hinf
      simpa [UserRunTurnTracker.newRun, UserRunTurnTracker.sees, PromptCollector.tracker, hine,
        hsome, hpi] using hne
  have hcounts : e.tracker.counts promptIndex = true := by
    rw [UserRunTurnTracker.counts]
    split
    · next hsees =>
      rw [UserRunTurnTracker.sees, Bool.or_eq_true] at hsees
      exact hsees.elim (fun hs => hseen (h.seen hs)) id
    · rfl
  have hsettled : settledText [line] = [] := by
    rw [← List.nil_append [line], settledText_concat_text htext]
    rfl
  have hopen : openText [line] = text := by
    rw [← List.nil_append [line], openText_concat_text htext, hchunk]
    rfl
  obtain ⟨hcurrent, -, -⟩ := flush_fields e h.outside
  rw [step_new hnew]
  refine ⟨⟨fun hs => ?_, fun hs _ => ⟨?_, hcounts⟩, fun hnot => by (cases hnot), fun _ => ⟨rfl, rfl⟩,
    fun _ => ⟨f.runs, [line], rfl, ?_, ?_, fun _ => hcounts⟩, fun hc => by (cases hc)⟩,
    fun _ run hrun => ?_, fun hc => by (cases hc)⟩
  · rw [UserRunTurnTracker.sees, Bool.or_eq_true] at hs ⊢
    exact hs.imp_left h.seen
  · rw [UserRunTurnTracker.sees, Bool.or_eq_false_iff] at hs
    simpa using hs.2
  · rw [hsettled, promptOf_blank blank_nil, List.append_nil]
    exact h.flush_prompts_eq_iff.2 hclear
  · rw [hopen, hcurrent]
    rfl
  · rw [List.getLast?_concat, Option.some_inj] at hrun
    subst hrun
    exact .inl (by rw [hsettled]; exact blank_nil)

/-- A text continues a counted run: for the extraction too, or it opens a run there after a chunk
without text. -/
theorem Follows.step_goes_on (h : Follows e f) (hf : f.Counting) (text : Str)
    (hc : f.counting = true) (hindex : promptIndex = f.tracker.currentRunPi) :
    e.step (.userTextChunk text promptIndex) =
      { prompts := e.prompts, current := e.current ++ text, inUser := true
        currentRunPi := promptIndex, currentCounts := true
        seenMarker := e.tracker.sees promptIndex } := by
  obtain ⟨_, _, -, -, -, hcounted⟩ := h.counted hc
  cases hin : e.inUser with
  | true =>
    have hpi : promptIndex = e.currentRunPi := hindex.trans (h.inside hin).2.symm
    have hsame : e.tracker.newRun promptIndex = false := by
      simp [UserRunTurnTracker.newRun, PromptCollector.tracker, hin, hpi]
    rw [step_same hsame, hpi, hin, hcounted hin]
  | false =>
    have hnew : e.tracker.newRun promptIndex = true := by
      simp [UserRunTurnTracker.newRun, PromptCollector.tracker, hin]
    have hflush : e.flush = e := if_neg (ne_true_of_eq_false hin)
    have hcounts : e.tracker.counts promptIndex = true := by
      rw [UserRunTurnTracker.counts]
      split
      · next hsees =>
        rw [UserRunTurnTracker.sees, Bool.or_eq_true] at hsees
        exact hsees.elim (fun hs => hindex ▸ (hf.counted hc).2 (h.seen hs)) id
      · rfl
    rw [step_new hnew, hflush, hcounts]

/-- A text in a run that is not counted. -/
theorem Follows.step_uncounted (h : Follows e f) (hclear : Clear e f) (hf : f.Counting) (text : Str)
    (hseen : f.tracker.seenMarker = true) :
    ∃ current, e.step (.userTextChunk text none) =
      { prompts := promptsOf f.runs, current := current, inUser := true, currentRunPi := none
        currentCounts := !e.seenMarker, seenMarker := e.seenMarker } ∧
      (e.seenMarker = false → (Blank current ↔ Blank text)) := by
  have hsees : e.tracker.sees none = e.seenMarker := by
    simp [UserRunTurnTracker.sees, PromptCollector.tracker]
  cases hnew : e.tracker.newRun none with
  | true =>
    have hcounts : e.tracker.counts none = !e.seenMarker := by
      rw [UserRunTurnTracker.counts, hsees]
      cases e.seenMarker <;> rfl
    obtain ⟨hcurrent, -, -⟩ := flush_fields e h.outside
    refine ⟨text, ?_, fun _ => Iff.rfl⟩
    rw [step_new hnew, hsees, hcounts]
    dsimp only
    rw [hcurrent, h.flush_prompts_eq_iff.2 hclear]
    rfl
  | false =>
    have hin : e.inUser = true := by
      by_contra hnot
      simp [UserRunTurnTracker.newRun, PromptCollector.tracker, hnot] at hnew
    have hpi : e.currentRunPi = none := by
      cases hs : e.seenMarker with
      | false => exact (h.unseen hs hin).1
      | true =>
        have heq : none = e.currentRunPi := by
          simpa [UserRunTurnTracker.newRun, UserRunTurnTracker.sees, PromptCollector.tracker, hin, hs]
            using hnew
        exact heq.symm
    have hc : f.counting = false := by
      by_contra hnot
      have hsome := (hf.counted (by simpa using hnot)).2 hseen
      rw [← (h.inside hin).2, hpi] at hsome
      cases hsome
    obtain ⟨hprompts, hblank⟩ := h.uncounted hc
    have hcounts : e.currentCounts = !e.seenMarker := by
      cases hs : e.seenMarker with
      | false => exact (h.unseen hs hin).2
      | true =>
        by_contra hnot
        rw [hblank hin (by simpa using hnot)] at hs
        cases hs
    refine ⟨e.current ++ text, ?_, fun hs => ?_⟩
    · rw [step_same hnew, hsees, hprompts, hpi, hcounts, hin]
    · rw [blank_append]
      exact and_iff_right (hclear.uncounted hc hin (h.unseen hs hin).2)

/-- A text of the user. -/
theorem Follows.step_text (h : Follows e f) (hclear : Clear e f) (hf : f.Counting)
    (htext : line.isTextChunk = true) (hline : rewindStepForLine line = .userChunk promptIndex) :
    Follows (e.step (.userTextChunk line.chunkText promptIndex)) (f.step rewindStepForLine line) ∧
      (Clear (e.step (.userTextChunk line.chunkText promptIndex)) (f.step rewindStepForLine line) ↔
        (Blank line.chunkText ∨
          ¬(f.counting = true ∧ f.tracker.newRun promptIndex = false ∧
            ∃ run, f.runs.getLast? = some run ∧ ¬Blank (settledText run.lines)) ∧
          ¬(promptIndex = none ∧ e.seenMarker = false ∧ f.tracker.seenMarker = true))) := by
  rcases hf.step_userChunk hline with ⟨hseen, hin, hnew, heq⟩ | ⟨hc, hindex, hsame, heq⟩ |
    ⟨rfl, hseen, hnew, heq⟩
  · rw [heq]
    obtain ⟨hfollows, hclear'⟩ := h.step_opens hclear htext rfl hseen hin
    refine ⟨hfollows, iff_of_true hclear' (.inr ⟨fun hsplit => ?_, fun hmiss => ?_⟩)⟩
    · rw [hnew] at hsplit
      cases hsplit.2.1
    · have hsome := hseen hmiss.2.2
      rw [hmiss.1] at hsome
      cases hsome
  · obtain ⟨init, lines, hruns, hprompts, hcurrent, -⟩ := h.counted hc
    rw [heq, h.step_goes_on hf _ hc hindex, KeptRuns.addLine_eq hruns]
    have hnot : ∀ {P : Prop}, f.counting = false → P := by
      intro P hfalse
      rw [hc] at hfalse
      cases hfalse
    have hsees : e.tracker.sees promptIndex = true → f.tracker.seenMarker = true := by
      intro hs
      rw [UserRunTurnTracker.sees, Bool.or_eq_true] at hs
      refine hs.elim h.seen fun hsome => ?_
      by_contra hunseen
      rw [hindex, hf.unseen (by simpa using hunseen)] at hsome
      cases hsome
    refine ⟨⟨hsees, fun hs _ => ⟨?_, rfl⟩, fun hfalse => by (cases hfalse), fun _ => ⟨rfl, rfl⟩,
      fun _ => ⟨init, lines ++ [line], rfl, ?_, ?_, fun _ => rfl⟩, hnot⟩, ?_⟩
    · rw [UserRunTurnTracker.sees, Bool.or_eq_false_iff] at hs
      simpa using hs.2
    · rw [settledText_concat_text htext]
      exact hprompts
    · rw [openText_concat_text htext, hcurrent]
    -- the open part grows by the text, what is settled stays
    have hmiss : ¬(promptIndex = none ∧ e.seenMarker = false ∧ f.tracker.seenMarker = true) := by
      intro hmiss
      have hsome := (hf.counted hc).2 hmiss.2.2
      rw [← hindex, hmiss.1] at hsome
      cases hsome
    have hbefore := hclear.counted hc _ (by rw [hruns, List.getLast?_concat])
    constructor
    · intro hafter
      have hlast := hafter.counted hc _ (by rw [List.getLast?_concat])
      rw [settledText_concat_text htext, openText_concat_text htext, blank_append] at hlast
      refine hlast.elim (fun hsettled => .inr ⟨fun hsplit => ?_, hmiss⟩) fun hopen => .inl hopen.2
      obtain ⟨run, hrun, hne⟩ := hsplit.2.2
      rw [hruns, List.getLast?_concat, Option.some_inj] at hrun
      exact hne (hrun ▸ hsettled)
    · intro hok
      refine ⟨fun _ run hrun => ?_, hnot⟩
      rw [List.getLast?_concat, Option.some_inj] at hrun
      subst hrun
      rw [settledText_concat_text htext, openText_concat_text htext, blank_append]
      rcases hok with hblank | ⟨hsplit, -⟩
      · exact hbefore.imp_right fun hopen => ⟨hopen, hblank⟩
      · refine .inl ?_
        by_contra hne
        exact hsplit ⟨hc, hsame, _, by rw [hruns, List.getLast?_concat], hne⟩
  · obtain ⟨current, hstep, hblank⟩ := h.step_uncounted hclear hf line.chunkText hseen
    rw [heq, hstep]
    refine ⟨⟨fun _ => rfl, fun hs _ => ⟨rfl, congrArg (!·) hs⟩, fun hfalse => by (cases hfalse),
      fun _ => ⟨rfl, rfl⟩, fun hc => by (cases hc), fun _ => ⟨(promptsOf_addAfter f line).symm, ?_⟩⟩,
      fun hafter => ?_, fun hok => ⟨fun hc => by (cases hc), fun _ _ hcounts => ?_⟩⟩
    · intro _ hcounts
      simpa using hcounts
    · cases hs : e.seenMarker with
      | true =>
        refine .inr ⟨fun hsplit => ?_, fun hmiss => by (cases hmiss.2.1)⟩
        rw [hnew hsplit.1] at hsplit
        cases hsplit.2.1
      | false => exact .inl ((hblank hs).1 (hafter.uncounted rfl rfl (by simp [hs])))
    · have hs : e.seenMarker = false := by simpa using hcounts
      exact (hblank hs).2 (hok.resolve_right fun hand => hand.2 ⟨rfl, hs, hseen⟩)

end Follow

section Rewinds

variable {runs : List (CountedRun Line)}

theorem promptsOf_eq_nil_iff : promptsOf runs = [] ↔ ∀ run ∈ runs, Blank (runText run.lines) := by
  simp [promptsOf, promptOf]

theorem length_promptsOf_le (runs : List (CountedRun Line)) : (promptsOf runs).length ≤ runs.length := by
  induction runs with
  | nil => exact le_rfl
  | cons run runs ih =>
    rw [promptsOf, List.flatMap_cons, List.length_append, List.length_cons, promptOf]
    change (_ : ℕ) + (promptsOf runs).length ≤ _
    split
    · rw [List.length_nil]
      omega
    · rw [List.length_singleton]
      omega

theorem length_promptsOf_eq_iff :
    (promptsOf runs).length = runs.length ↔ ∀ run ∈ runs, ¬Blank (runText run.lines) := by
  induction runs with
  | nil => simp [promptsOf]
  | cons run runs ih =>
    have hle := length_promptsOf_le runs
    rw [List.forall_mem_cons, ← ih, promptsOf, List.flatMap_cons, List.length_append,
      List.length_cons, promptOf]
    change (_ : ℕ) + (promptsOf runs).length = _ ↔ _
    split
    · next hblank =>
      rw [List.length_nil]
      exact iff_of_false (by omega) fun hand => hand.1 hblank
    · next hblank =>
      rw [List.length_singleton, and_iff_right hblank]
      omega

/-- A rewind by index in the list of prompts against one in the list of runs. -/
theorem take_promptsOf_eq_iff (n : ℕ) :
    (promptsOf runs).take n = promptsOf (runs.take n) ↔
      ¬((∃ run ∈ runs.take n, Blank (runText run.lines)) ∧
        ∃ run ∈ runs.drop n, ¬Blank (runText run.lines)) := by
  have hsplit : promptsOf runs = promptsOf (runs.take n) ++ promptsOf (runs.drop n) := by
    rw [← promptsOf_append, List.take_append_drop]
  have hle := length_promptsOf_le (runs.take n)
  have hlen := List.length_take_le n runs
  constructor
  · rintro heq ⟨⟨run, hrun, hblank⟩, run', hrun', htext⟩
    -- fewer prompts than runs are before the cut, so the index reaches beyond it
    have hfew : (promptsOf (runs.take n)).length ≠ (runs.take n).length := by
      rw [Ne, length_promptsOf_eq_iff]
      exact fun hall => hall run hrun hblank
    have hmore : promptsOf (runs.drop n) ≠ [] := by
      rw [Ne, promptsOf_eq_nil_iff]
      exact fun hall => htext (hall run' hrun')
    have hcount := congrArg List.length heq
    rw [hsplit, List.length_take, List.length_append] at hcount
    have hpos := List.length_pos_of_ne_nil hmore
    omega
  · intro hnot
    rw [hsplit]
    by_cases hall : ∀ run ∈ runs.take n, ¬Blank (runText run.lines)
    · rw [← length_promptsOf_eq_iff] at hall
      rcases Nat.lt_or_ge n runs.length with hlt | hge
      · rw [List.length_take, Nat.min_eq_left hlt.le] at hall
        rw [List.take_append_of_le_length hall.ge, List.take_of_length_le hall.le]
      · rw [List.drop_of_length_le hge]
        simp only [promptsOf, List.flatMap_nil, List.append_nil]
        exact List.take_of_length_le (hle.trans hlen)
    · push Not at hall
      have hnil : promptsOf (runs.drop n) = [] := by
        rw [promptsOf_eq_nil_iff]
        intro run hrun
        by_contra hblank
        exact hnot ⟨hall, run, hrun, hblank⟩
      rw [hnil, List.append_nil, List.take_of_length_le (hle.trans hlen)]

end Rewinds

section Agreement

variable {lines p : List Line} {line : Line}

/-- The state of the extraction after a transcript. -/
def collected (lines : List Line) : PromptCollector :=
  StepRun.run PromptCollector.step {} (lines.map parsePromptExtractEvent)

theorem collected_concat (p : List Line) (line : Line) :
    collected (p ++ [line]) = (collected p).step (parsePromptExtractEvent line) := by
  rw [collected, List.map_append, StepRun.run_append]
  rfl

theorem extractedPrompts_eq (p : List Line) : extractedPrompts p = (collected p).flush.prompts := rfl

theorem flush_seenMarker (c : PromptCollector) : c.flush.seenMarker = c.seenMarker := by
  rw [PromptCollector.flush]
  split <;> rfl

theorem collected_seenMarker_iff (p : List Line) :
    (collected p).seenMarker = false ↔ ∀ l ∈ p, l.isTextChunk = true → l.promptIndex = none := by
  induction p using List.reverseRecOn with
  | nil => exact iff_of_true rfl fun _ hl => by (cases hl)
  | append_singleton p line ih =>
    rw [collected_concat, List.forall_mem_append, List.forall_mem_singleton, ← ih]
    rcases parsePromptExtractEvent_cases line with ⟨promptIndex, hevent, htext, -, hindex⟩ |
      ⟨target, hevent, -⟩ | ⟨hevent, htext, -⟩
    · have hseen : ((collected p).step (.userTextChunk line.chunkText promptIndex)).seenMarker =
          ((collected p).seenMarker || promptIndex.isSome) := by
        cases hnew : (collected p).tracker.newRun promptIndex with
        | true => rw [step_new hnew]; rfl
        | false => rw [step_same hnew]; rfl
      rw [hevent, hseen, Bool.or_eq_false_iff, hindex]
      simp [htext]
    · have htext : line.isTextChunk = false := by simp [Line.isTextChunk, hevent]
      rw [hevent, PromptCollector.step]
      simp [htext, flush_seenMarker]
    · rw [hevent, PromptCollector.step, flush_seenMarker]
      simp [htext]

theorem keptRuns_seenMarker_iff (p : List Line) :
    (keptRuns p).tracker.seenMarker = true ↔
      ∃ l ∈ p, ∃ i, rewindStepForLine l = .userChunk (some i) := by
  induction p using List.reverseRecOn with
  | nil => exact iff_of_false Bool.false_ne_true fun ⟨_, hl, _⟩ => by (cases hl)
  | append_singleton p line ih =>
    have hexists : (∃ l ∈ p ++ [line], ∃ i, rewindStepForLine l = .userChunk (some i)) ↔
        (keptRuns p).tracker.seenMarker = true ∨ ∃ i, rewindStepForLine line = .userChunk (some i) := by
      rw [ih]
      simp only [List.mem_append, List.mem_singleton, or_and_right, exists_or, exists_eq_left]
    rw [hexists, keptRuns_concat, KeptRuns.step]
    cases hline : rewindStepForLine line with
    | rewind target => simp [UserRunTurnTracker.onNonUser]
    | other => simp [UserRunTurnTracker.onNonUser]
    | userChunk promptIndex =>
      have hsees : ((keptRuns p).tracker.onUserChunk promptIndex).1.seenMarker =
          (keptRuns p).tracker.sees promptIndex := by
        rw [UserRunTurnTracker.onUserChunk]
        split <;> rfl
      have hiff : (keptRuns p).tracker.sees promptIndex = true ↔
          (keptRuns p).tracker.seenMarker = true ∨ ∃ i, promptIndex = some i := by
        rw [UserRunTurnTracker.sees, Bool.or_eq_true, Option.isSome_iff_exists]
      simp only [RewindStep.userChunk.injEq]
      rw [← hiff, ← hsees]
      split
      · rfl
      · split <;> rfl

/-- The two ways to read the transcript are at the same place. -/
def Agreeing (p : List Line) : Prop :=
  Follows (collected p) (keptRuns p) ∧ Clear (collected p) (keptRuns p)

theorem Agreeing.prompts_eq (h : Agreeing p) : extractedPrompts p = keptPrompts p :=
  h.1.flush_prompts_eq_iff.2 h.2

theorem agreeing_nil : Agreeing [] :=
  Follows.of_outside rfl rfl (fun h => by (cases h)) (fun h => by (cases h)) fun _ => rfl

/-- One line later they agree unless the line drifts. -/
theorem Agreeing.concat (h : Agreeing p) (line : Line) :
    (¬Drifts p line → Agreeing (p ++ [line])) ∧
      (extractedPrompts (p ++ [line]) = keptPrompts (p ++ [line]) → ¬Drifts p line) := by
  have hf := counting_keptRuns p
  rcases parsePromptExtractEvent_cases line with ⟨promptIndex, hevent, htext, hline, -⟩ |
    ⟨target, hevent, hline⟩ | ⟨hevent, htext, hrewind⟩
  · obtain ⟨hfollows, hclear⟩ := h.1.step_text h.2 hf htext hline
    rw [collected_seenMarker_iff, keptRuns_seenMarker_iff] at hclear
    have hdrift : ¬Drifts p line ↔ Clear (collected (p ++ [line])) (keptRuns (p ++ [line])) := by
      rw [collected_concat, keptRuns_concat, hevent, hclear, Drifts, hline]
      simp only [htext, true_and, not_and_or, not_or, not_not, SplitsRun, MissesMarker]
    rw [← hevent, ← collected_concat, ← keptRuns_concat] at hfollows
    exact ⟨fun hnot => ⟨hfollows, hdrift.1 hnot⟩,
      fun heq => hdrift.2 (hfollows.flush_prompts_eq_iff.1 heq)⟩
  · have hprompts := h.prompts_eq
    obtain ⟨hcurrent, hin, hseen⟩ := flush_fields (collected p) h.1.outside
    have hdrift : ¬Drifts p line ↔
        ((collected p).flush.prompts).take target = promptsOf ((keptRuns p).runs.take target) := by
      rw [← extractedPrompts_eq, hprompts, Drifts, hline]
      exact (take_promptsOf_eq_iff target).symm
    rw [hdrift, Agreeing, extractedPrompts_eq, keptPrompts, collected_concat, keptRuns_concat,
      hevent, KeptRuns.step, hline]
    constructor
    · intro heq
      exact Follows.of_outside hin hcurrent (fun hs => h.1.seen (hseen ▸ hs))
        (fun hc => by (cases hc)) fun _ => heq
    · intro heq
      rw [PromptCollector.step, flush_prompts] at heq
      simpa [hin] using heq
  · have hstep := h.1.flush_step h.2 hf htext hrewind
    rw [Agreeing, collected_concat, keptRuns_concat, hevent]
    refine ⟨fun _ => hstep, fun _ hdrift => ?_⟩
    rw [Drifts] at hdrift
    split at hdrift
    · next target hline => exact hrewind target hline
    · rw [htext] at hdrift
      cases hdrift.1
    · exact hdrift

/-- Up to every point of a transcript the extracted prompts are the texts of the counted runs
that the rewind filter keeps, if and only if no line of it drifts. -/
theorem extractedPrompts_eq_keptPrompts_iff (lines : List Line) :
    (∀ p, p <+: lines → extractedPrompts p = keptPrompts p) ↔
      ∀ pre line post, lines = pre ++ line :: post → ¬Drifts pre line := by
  constructor
  · intro heq
    -- the prompts agree up to each line, so the readings stay together
    have hagree : ∀ p, p <+: lines → Agreeing p := by
      intro p
      induction p using List.reverseRecOn with
      | nil => exact fun _ => agreeing_nil
      | append_singleton p line ih =>
        intro hp
        have hag := ih ((List.prefix_append p [line]).trans hp)
        exact (hag.concat line).1 ((hag.concat line).2 (heq _ hp))
    rintro pre line post rfl
    have hp : pre ++ [line] <+: pre ++ line :: post := ⟨post, by simp⟩
    exact ((hagree pre (List.prefix_append _ _)).concat line).2 (heq _ hp)
  · intro hnot p hp
    have hagree : Agreeing p := by
      induction p using List.reverseRecOn with
      | nil => exact agreeing_nil
      | append_singleton p line ih =>
        obtain ⟨post, heq⟩ := hp
        refine ((ih ⟨line :: post, by simpa using heq⟩).concat line).1 (hnot p line post ?_)
        simpa using heq.symm
    exact hagree.prompts_eq

/-- A text of the user, as the transcript has it. -/
def textLine (text : Str) : Line :=
  { tag := .userMessageChunk
    content := some { contentType := some "text".toList, text := some text } }

def rewindLine (target : ℕ) : Line :=
  { isXai := true, tag := .rewindMarker, targetPromptIndex := some target }

/-- A blank prompt is counted by the filter and not by the extraction: a rewind to the second
prompt keeps that prompt in the list. -/
theorem blank_prompt_before_rewind :
    ¬∀ lines, extractedPrompts lines = keptPrompts lines := by
  intro h
  exact absurd (h [textLine " ".toList, { tag := .other }, textLine "b".toList, { tag := .other },
    rewindLine 1]) (by decide)

end Agreement

end GrokBuild.Transcript
