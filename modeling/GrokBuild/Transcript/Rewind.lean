import GrokBuild.Lib.StepRun
import GrokBuild.Text.Str
import Mathlib.Data.List.Basic

/-!
# Prompts of a transcript

`session/storage/mod.rs` reads the prompts of `updates.jsonl` in two ways. The rewind filter
drops the lines of branches that were rewound away, and for this numbers the user runs with
a tracker. Prompt extraction numbers them on its own. A line is taken as parsed, with the
fields the two look at.
-/

namespace GrokBuild.Transcript

open GrokBuild.Text

inductive UpdateTag where
  | userMessageChunk
  | rewindMarker
  | other
deriving DecidableEq, Repr

structure ContentPeek where
  contentType : Option Str := none
  text : Option Str := none
  bashCommand : Option Str := none
deriving DecidableEq, Repr

structure ChunkMeta where
  promptIndex : Option ℕ := none
  hostTurn : Option Bool := none
deriving DecidableEq, Repr

/-- A line of `updates.jsonl`; `isXai` says by which of the two methods it was sent. -/
structure Line where
  isXai : Bool := false
  tag : UpdateTag
  content : Option ContentPeek := none
  chunkMeta : Option ChunkMeta := none
  targetPromptIndex : Option ℕ := none
deriving DecidableEq, Repr

def Line.promptIndex (line : Line) : Option ℕ := line.chunkMeta.bind (·.promptIndex)

def Line.isHostTurn (line : Line) : Bool := (line.chunkMeta.bind (·.hostTurn)).getD false

/-! ## The rewind filter -/

inductive RewindStep where
  | rewind (target : ℕ)
  | userChunk (promptIndex : Option ℕ)
  | other
deriving DecidableEq, Repr

def rewindStepForLine (line : Line) : RewindStep :=
  match line.isXai, line.tag, line.targetPromptIndex with
  | true, .rewindMarker, some target => .rewind target
  | false, .userMessageChunk, _ =>
    if line.isHostTurn then .other else .userChunk line.promptIndex
  | _, _, _ => .other

structure UserRunTurnTracker where
  seenMarker : Bool := false
  inUser : Bool := false
  currentRunPi : Option ℕ := none
deriving DecidableEq, Repr

namespace UserRunTurnTracker

def sees (tracker : UserRunTurnTracker) (promptIndex : Option ℕ) : Bool :=
  tracker.seenMarker || promptIndex.isSome

/-- A user chunk opens a new run. -/
def newRun (tracker : UserRunTurnTracker) (promptIndex : Option ℕ) : Bool :=
  if !tracker.inUser then true
  else if tracker.sees promptIndex then promptIndex != tracker.currentRunPi
  else false

/-- A run that a user chunk opens is counted. -/
def counts (tracker : UserRunTurnTracker) (promptIndex : Option ℕ) : Bool :=
  if tracker.sees promptIndex then promptIndex.isSome else true

/-- The tracker after a user chunk, and whether the chunk opened a counted run. -/
def onUserChunk (tracker : UserRunTurnTracker) (promptIndex : Option ℕ) :
    UserRunTurnTracker × Bool :=
  if tracker.newRun promptIndex then
    (⟨tracker.sees promptIndex, true, promptIndex⟩, tracker.counts promptIndex)
  else (⟨tracker.sees promptIndex, true, tracker.currentRunPi⟩, false)

def onNonUser (tracker : UserRunTurnTracker) : UserRunTurnTracker :=
  { tracker with inUser := false, currentRunPi := none }

end UserRunTurnTracker

section Filter

variable {T : Type}

structure RewindFilter (T : Type) where
  result : List T := []
  promptStarts : List ℕ := []
  tracker : UserRunTurnTracker := {}

def rewindFilterStep (classify : T → RewindStep) (s : RewindFilter T) (item : T) :
    RewindFilter T :=
  match classify item with
  | .rewind target =>
    -- a target out of range keeps every survivor
    { result := s.result.take (s.promptStarts[target]?.getD s.result.length)
      promptStarts := s.promptStarts.take target
      tracker := s.tracker.onNonUser }
  | .userChunk promptIndex =>
    let tracked := s.tracker.onUserChunk promptIndex
    { result := s.result ++ [item]
      promptStarts := if tracked.2 then s.promptStarts ++ [s.result.length] else s.promptStarts
      tracker := tracked.1 }
  | .other => { s with result := s.result ++ [item], tracker := s.tracker.onNonUser }

def filterRewindBy (items : List T) (classify : T → RewindStep) : List T :=
  (StepRun.run (rewindFilterStep classify) {} items).result

end Filter

/-! ## Prompt extraction -/

inductive PromptExtractEvent where
  | userTextChunk (text : Str) (promptIndex : Option ℕ)
  | rewindTo (target : ℕ)
  | notUserMessage
deriving DecidableEq, Repr

/-- The text of a chunk that is neither a command nor of another type. -/
def ContentPeek.promptText (content : ContentPeek) : Option Str :=
  if content.contentType = some "text".toList ∧ content.bashCommand = none then content.text
  else none

def parsePromptExtractEvent (line : Line) : PromptExtractEvent :=
  match line.isXai, line.tag with
  | false, .userMessageChunk =>
    match line.content.bind (·.promptText) with
    | none => .notUserMessage
    | some text =>
      if (line.chunkMeta.bind (·.hostTurn)) = some true then .notUserMessage
      else .userTextChunk text line.promptIndex
  | true, .rewindMarker =>
    match line.targetPromptIndex with
    | none => .notUserMessage
    | some target => .rewindTo target
  | _, _ => .notUserMessage

structure PromptCollector where
  prompts : List Str := []
  current : Str := []
  inUser : Bool := false
  currentRunPi : Option ℕ := none
  currentCounts : Bool := false
  seenMarker : Bool := false
deriving DecidableEq, Repr

namespace PromptCollector

def flush (c : PromptCollector) : PromptCollector :=
  if c.inUser then
    { c with
      prompts :=
        if c.currentCounts ∧ trim c.current ≠ [] then c.prompts ++ [trim c.current] else c.prompts
      current := [], inUser := false, currentRunPi := none, currentCounts := false }
  else c

def step (c : PromptCollector) : PromptExtractEvent → PromptCollector
  | .userTextChunk text promptIndex =>
    let seenMarker := c.seenMarker || promptIndex.isSome
    let counts := if seenMarker then promptIndex.isSome else true
    let newRun :=
      if !c.inUser then true
      else if seenMarker then promptIndex != c.currentRunPi
      else false
    if newRun then
      { c.flush with
        inUser := true, currentRunPi := promptIndex, currentCounts := counts
        current := c.flush.current ++ text, seenMarker := seenMarker }
    else if c.currentRunPi.isNone && promptIndex.isSome then
      { c with current := c.current ++ text, currentRunPi := promptIndex, currentCounts := true
               seenMarker := seenMarker }
    else { c with current := c.current ++ text, seenMarker := seenMarker }
  | .rewindTo target => { c.flush with prompts := c.flush.prompts.take target }
  | .notUserMessage => c.flush

end PromptCollector

def collectPromptsFromEvents (events : List PromptExtractEvent) : List Str :=
  (StepRun.run PromptCollector.step {} events).flush.prompts

end GrokBuild.Transcript
