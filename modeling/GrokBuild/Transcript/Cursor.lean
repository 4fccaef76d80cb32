import Mathlib
import GrokBuild.Text.Lines
import GrokBuild.Transcript.Runs

/-!
# Reconnecting with a cursor

`session/storage/replay.rs`: a client that reconnects names the last event it has seen, and the
replay is prepared from there. The lines of `updates.jsonl` are read raw here. What the JSON
reader makes of them is a parameter, with the two facts about it that the code relies on.
-/

namespace GrokBuild.Transcript

open GrokBuild.Text

section Peeks

structure RawLinePeek where
  method : Option Str := none
  params : Option Str := none
deriving DecidableEq

structure RawUpdatePeek where
  sessionUpdate : Str
  status : Option Str := none
  targetPromptIndex : Option ℕ := none
  chunkMeta : Option ChunkMeta := none
deriving DecidableEq

structure RawParamsPeek where
  update : Option RawUpdatePeek := none
  metaRaw : Option Str := none
deriving DecidableEq

structure UnfinishedSubagent where
  subagentId : Str
  attemptId : Option Str := none
  childSessionId : Str
deriving DecidableEq

inductive SubagentNotification where
  | subagentSpawned (subagent : UnfinishedSubagent)
  | subagentFinished (subagentId : Str)
  | other
deriving DecidableEq

/-- `serde_json` on the types that lines are peeked as; `none` is an error of the reader. -/
structure Peeks where
  rawLine : Str → Option RawLinePeek
  rawParams : Str → Option RawParamsPeek
  eventIdPeek : Str → Option (Option Str)
  tokensPeek : Str → Option (Option ℕ)
  /-- `eventId` of a value, if it is a string. -/
  valueEventId : Str → Option Str
  notification : Str → Option SubagentNotification

/-- A peek borrows from the line it reads, and the two ways to read an event id agree. -/
structure Peeks.Lawful (peeks : Peeks) : Prop where
  params_infix : ∀ line env raw, peeks.rawLine line = some env → env.params = some raw → raw <:+: line
  update_infix : ∀ raw peek u, peeks.rawParams raw = some peek → peek.update = some u →
    u.sessionUpdate <:+: raw
  eventId_eq : ∀ raw id, peeks.eventIdPeek raw = some (some id) → peeks.valueEventId raw = some id

end Peeks

section Tags

def xaiSessionUpdateMethod : Str := "_x.ai/session/update".toList

def userMessageChunkTag : Str := "user_message_chunk".toList

def rewindMarkerTag : Str := "rewind_marker".toList

def availableCommandsUpdateTag : Str := "available_commands_update".toList

def toolCallUpdateTag : Str := "tool_call_update".toList

def inProgressStatus : Str := "in_progress".toList

def eventIdKey : Str := "eventId".toList

def totalTokensKey : Str := "totalTokens".toList

end Tags

variable (peeks : Peeks)

section Lines

def RawUpdatePeek.tag (u : RawUpdatePeek) : UpdateTag :=
  if u.sessionUpdate = rewindMarkerTag then .rewindMarker
  else if u.sessionUpdate = userMessageChunkTag then .userMessageChunk
  else .other

/-- The parsed line that the rewind filter looks at. -/
def peekedLine (line : Str) : Line :=
  let env := (peeks.rawLine line).getD {}
  match (peeks.rawParams (env.params.getD line)).bind (·.update) with
  | none => { tag := .other }
  | some u =>
    { isXai := env.method = some xaiSessionUpdateMethod, tag := u.tag, chunkMeta := u.chunkMeta
      targetPromptIndex := u.targetPromptIndex }

def rewindStepForRaw (line : Str) : RewindStep := rewindStepForLine (peekedLine peeks line)

def filterRewindRaw (ls : List Str) : List Str :=
  if ls.all (fun line => ¬rewindMarkerTag <:+: line) then ls
  else filterRewindBy ls (rewindStepForRaw peeks)

def lineMeta (line : Str) : Option Str :=
  (peeks.rawLine line).bind fun env => (peeks.rawParams (env.params.getD line)).bind (·.metaRaw)

def peekLineUpdate (line : Str) : Option RawUpdatePeek :=
  (peeks.rawLine line).bind fun env => (peeks.rawParams (env.params.getD line)).bind (·.update)

def lineIsAvailableCommandsUpdate (line : Str) : Bool :=
  availableCommandsUpdateTag <:+: line ∧
    (peekLineUpdate peeks line).any (·.sessionUpdate = availableCommandsUpdateTag)

def lineIsInProgressToolCallUpdate (line : Str) : Bool :=
  (toolCallUpdateTag <:+: line ∧ inProgressStatus <:+: line) ∧
    (peekLineUpdate peeks line).any fun u =>
      u.sessionUpdate = toolCallUpdateTag ∧ u.status = some inProgressStatus

def lineIsDroppedOnReplay (line : Str) : Bool :=
  lineIsAvailableCommandsUpdate peeks line || lineIsInProgressToolCallUpdate peeks line

def lineTotalTokens (line : Str) : Option ℕ :=
  if totalTokensKey <:+: line then
    (lineMeta peeks line).bind fun raw => (peeks.tokensPeek raw).bind id
  else none

def lineEventId (line : Str) : Option Str :=
  if eventIdKey <:+: line then
    (lineMeta peeks line).bind fun raw => (peeks.eventIdPeek raw).bind id
  else none

def lineHasEventId (line cursorId : Str) : Bool := lineEventId peeks line = some cursorId

/-- `str::parse::<u64>`. -/
def parseU64 (s : Str) : Option ℕ :=
  let digits := (stripPrefix s ['+']).getD s
  if digits ≠ [] ∧ digits.all Char.isDigit then
    let n := digits.foldl (fun n c => 10 * n + (c.toNat - '0'.toNat)) 0
    if n < 2 ^ 64 then some n else none
  else none

/-- The counter of an event id: what follows its last dash. -/
def eventSeq (eventId : Str) : Option ℕ := parseU64 (eventId.rtakeWhile (· ≠ '-'))

/-- The counter that an enveloped line adds to the highest one. -/
def lineEventSeq (line : Str) : Option ℕ :=
  if eventIdKey <:+: line then
    ((peeks.rawLine line).bind (·.params)).bind fun raw =>
      ((peeks.rawParams raw).bind (·.metaRaw)).bind fun metaRaw =>
        (peeks.valueEventId metaRaw).bind eventSeq
  else none

end Lines

section Prepare

/-- The map of running subagents, in the order of their ids. -/
def insertSubagent (pending : List UnfinishedSubagent) (subagent : UnfinishedSubagent) :
    List UnfinishedSubagent :=
  (pending.takeWhile (·.subagentId < subagent.subagentId)) ++
    subagent :: (pending.dropWhile (·.subagentId < subagent.subagentId)).filter
      (·.subagentId ≠ subagent.subagentId)

def subagentStep (pending : List UnfinishedSubagent) (line : Str) : List UnfinishedSubagent :=
  if ¬"subagent_spawned".toList <:+: line ∧ ¬"subagent_finished".toList <:+: line then pending
  else
    match peeks.notification (((peeks.rawLine line).bind (·.params)).getD line) with
    | some (.subagentSpawned subagent) => insertSubagent pending subagent
    | some (.subagentFinished subagentId) => pending.filter (·.subagentId ≠ subagentId)
    | _ => pending

def collectUnfinishedSubagents (filtered : List Str) : List UnfinishedSubagent :=
  filtered.foldl (subagentStep peeks) []

/-- `Iterator::rposition`. -/
def rposition {T : Type} (p : T → Bool) : List T → Option ℕ
  | [] => none
  | x :: xs =>
    match rposition p xs with
    | some i => some (i + 1)
    | none => if p x then some 0 else none

structure PreparedReplay where
  lines : List Str
  markReplay : Bool
  lastTokens : ℕ
  maxEventSeq : Option ℕ
  totalLive : ℕ
  unfinishedSubagents : List UnfinishedSubagent

/-- The lines of a file that are not blank, less the rewound branches. -/
def rewindFilteredLive (contents : Str) : List Str :=
  filterRewindRaw peeks ((Text.lines contents).filter fun l => trim l ≠ [])

def maxSeq (highest : Option ℕ) (line : Str) : Option ℕ :=
  match lineEventSeq peeks line with
  | none => highest
  | some seq => some (highest.elim seq (max · seq))

/-- A cursor that a line of the transcript has, if the lines after it are forwarded with an id
or not at all. -/
def cursorPos (filtered : List Str) (cursor : Option Str) : Option ℕ :=
  (cursor.bind fun id => rposition (fun l => lineHasEventId peeks l id) filtered).filter fun pos =>
    (filtered.drop (pos + 1)).all fun l =>
      lineIsDroppedOnReplay peeks l || (lineEventId peeks l).isSome

def prepareReplayLines (contents : Str) (cursor : Option Str) : PreparedReplay :=
  let filtered := rewindFilteredLive peeks contents
  let pos := cursorPos peeks filtered cursor
  let start := pos.elim 0 (· + 1)
  { lines := (filtered.drop start).filter fun l => !lineIsDroppedOnReplay peeks l
    markReplay := pos.isNone
    lastTokens := (filtered.reverse.findSome? (lineTotalTokens peeks)).getD 0
    maxEventSeq := filtered.foldl (maxSeq peeks) none
    totalLive := (filtered.filter fun l => !lineIsDroppedOnReplay peeks l).length
    unfinishedSubagents := collectUnfinishedSubagents peeks filtered }

end Prepare

section Filter

variable {T : Type} {classify : T → RewindStep}

/-- What more items leave of the kept ones is a beginning, and what they add is among them. -/
theorem filterRewindBy_append (items added : List T) :
    ∃ k kept, filterRewindBy (items ++ added) classify =
      (filterRewindBy items classify).take k ++ kept ∧ kept.Sublist added := by
  induction added using List.reverseRecOn with
  | nil =>
    refine ⟨(filterRewindBy items classify).length, [], ?_, List.Sublist.refl _⟩
    rw [List.append_nil, List.append_nil, List.take_length]
  | append_singleton added item ih =>
    obtain ⟨k, kept, heq, hsub⟩ := ih
    rw [filterRewindBy] at heq ⊢
    rw [← List.append_assoc, StepRun.run_append, StepRun.run_cons, StepRun.run_nil, rewindFilterStep]
    have hgrows : ∃ k' kept', ((filterRewindBy items classify).take k ++ kept) ++ [item] =
        (filterRewindBy items classify).take k' ++ kept' ∧ kept'.Sublist (added ++ [item]) :=
      ⟨k, kept ++ [item], List.append_assoc _ _ _, hsub.append (List.Sublist.refl _)⟩
    cases classify item with
    | rewind target =>
      dsimp only
      rw [heq, List.take_append, List.take_take]
      exact ⟨_, _, rfl, (List.take_sublist _ _).trans (hsub.trans (List.sublist_append_left _ _))⟩
    | userChunk promptIndex =>
      dsimp only
      rw [heq]
      exact hgrows
    | other =>
      dsimp only
      rw [heq]
      exact hgrows

theorem filterRewindBy_sublist (items : List T) :
    (filterRewindBy items classify).Sublist items := by
  have hnil : filterRewindBy ([] : List T) classify = [] := rfl
  have happend : ∃ k kept, filterRewindBy ([] ++ items) classify =
      (filterRewindBy [] classify).take k ++ kept ∧ kept.Sublist items := filterRewindBy_append [] items
  obtain ⟨k, kept, heq, hsub⟩ := happend
  rw [List.nil_append, hnil, List.take_nil, List.nil_append] at heq
  rw [heq]
  exact hsub

end Filter

section Text

end Text

section Position

variable {T : Type} {p : T → Bool}

end Position

section Reconnect

variable {peeks : Peeks}

/-- What a client is sent that has no cursor. -/
def replay (peeks : Peeks) (contents : Str) : List Str := (prepareReplayLines peeks contents none).lines

end Reconnect

section Envelopes

/-- What stands between two texts. -/
def unwrap (before after : Str) (s : Str) : Option Str :=
  (stripPrefix s before).bind fun rest => stripSuffix rest after

def envelope (eventId : String) : Str :=
  "\x7b\"params\":\x7b\"_meta\":\x7b\"eventId\":\"".toList ++ eventId.toList ++
    "\"\x7d\x7d\x7d\n".toList

end Envelopes

end GrokBuild.Transcript
