import Mathlib
import GrokBuild.Lib.StepRun
import GrokBuild.Text.Str

/-!
# Writes to the session summary

`session/storage/summary_write.rs`: five routines read `summary.json`, change it and write it
back, each under one lock. A run of them by any number of writers is a list of operations, and
one that fails before its rename leaves the file alone. Times are numbers.
-/

namespace GrokBuild.Summary

open GrokBuild.Text

section Data

/-- The fields that make up the title of a session. -/
structure Titles where
  generatedTitle : Option Str := none
  sessionSummary : Str := []
  titleIsManual : Bool := false
deriving DecidableEq, Repr

/-- The summary, with the fields no writer here touches as `rest`. -/
structure Summary extends Titles where
  numMessages : ℕ := 0
  numChatMessages : ℕ := 0
  lastActiveAt : Option ℕ := none
  updatedAt : ℕ := 0
  chatFormatVersion : ℕ := 0
  cwdSwitchBookkeepingGeneration : ℕ := 0
  nextTraceTurn : ℕ := 0
  requestId : Option Str := none
  agentId : Option Str := none
  attemptId : Option Str := none
  currentModelId : Str := []
  agentName : Option Str := none
  reasoningEffort : Option Str := none
  headCommit : Option Str := none
  headBranch : Option Str := none
  collectionId : Option Str := none
  lastTurnSummary : Option Str := none
  lastTurnSummaryPromptId : Option Str := none
  lastRecap : Option Str := none
  sessionKind : Option Str := none
  worktreeLabel : Option Str := none
  sourceWorkspaceDir : Option Str := none
  rest : Str := []
deriving DecidableEq, Repr

inductive CounterOp where
  | increment (n : ℕ)
  | set (n : ℕ)
deriving DecidableEq, Repr

structure ModelPatch where
  modelId : Str
  agentName : Option Str := none
  reasoningEffort : Option (Option Str) := none
deriving DecidableEq, Repr

structure GitHeadPatch where
  commit : Option Str
  branch : Option Str
deriving DecidableEq, Repr

structure TraceTurnPatch where
  nextTraceTurn : ℕ
  requestId : Option Str := none
deriving DecidableEq, Repr

structure SummaryPatch where
  recordActivity : Bool := false
  messages : Option CounterOp := none
  chatMessages : Option CounterOp := none
  chatFormatVersion : Option ℕ := none
  traceTurn : Option TraceTurnPatch := none
  attemptId : Option Str := none
  model : Option ModelPatch := none
  gitHead : Option GitHeadPatch := none
  collectionId : Option Str := none
  generatedTitle : Option Str := none
  generatedTitleIfAbsent : Option Str := none
  generatedTitleRegenerate : Option Str := none
  resetTitleToAuto : Bool := false
  cwdSwitchBookkeepingGeneration : Option ℕ := none
  lastTurnSummary : Option (Option (Str × Str)) := none
  lastRecap : Option (Option Str) := none
  sessionKindIfAbsent : Option Str := none
deriving DecidableEq, Repr

end Data

section Titles

/-- The generated title if it is not blank, else the summary. -/
def Titles.displayTitle (t : Titles) : Str :=
  ((t.generatedTitle.map trim).filter (· ≠ [])).getD t.sessionSummary

def Titles.manualTitleOpt (t : Titles) : Option Str :=
  if t.titleIsManual then (t.generatedTitle.map trim).filter (· ≠ []) else none

def Titles.setTitle (t : Titles) (title : Str) : Titles :=
  { t with
    generatedTitle := some title
    sessionSummary := if t.sessionSummary = [] then title else t.sessionSummary }

def Titles.setTitleOverwrite (t : Titles) (title : Str) : Titles :=
  { t with generatedTitle := some title, sessionSummary := title }

/-- The titles after a patch, and whether an automatic title was adopted or a manual one reset. -/
def Titles.patched (t : Titles) (patch : SummaryPatch) : Titles × Bool :=
  if patch.resetTitleToAuto then
    let clearedManual := t.manualTitleOpt.isSome
    (if clearedManual then { generatedTitle := none, sessionSummary := [], titleIsManual := false }
      else { t with titleIsManual := false }, clearedManual)
  else
    match patch.generatedTitle, patch.generatedTitleRegenerate, patch.generatedTitleIfAbsent with
    | some title, _, _ => ({ t.setTitle title with titleIsManual := true }, false)
    | none, some title, _ => if !t.titleIsManual then (t.setTitleOverwrite title, true) else (t, false)
    | none, none, some title =>
      if trim t.displayTitle = [] then ({ t.setTitle title with titleIsManual := false }, true)
      else (t, false)
    | none, none, none => (t, false)

end Titles

section Patch

/-- `usize::MAX`. -/
def usizeMax : ℕ := 2 ^ 64 - 1

def CounterOp.apply (current : ℕ) : CounterOp → ℕ
  | .increment n => min (current + n) usizeMax
  | .set n => n

/-- The cwd switch is newer than the ones that were counted. -/
def SummaryPatch.raisesGeneration (patch : SummaryPatch) (s : Summary) : Bool :=
  patch.cwdSwitchBookkeepingGeneration.any (s.cwdSwitchBookkeepingGeneration < ·)

/-- What becomes of the chat counter: an explicit operation owns it, else a newer cwd switch
repairs a line that was found on disk. -/
def SummaryPatch.chatOp (patch : SummaryPatch) (s : Summary) : Option CounterOp :=
  match patch.chatMessages with
  | some op => some op
  | none => if patch.raisesGeneration s then some (.increment 1) else none

/-- The patch has a trace turn that is no older than the summary's. -/
def SummaryPatch.winningTurn (patch : SummaryPatch) (s : Summary) : Option TraceTurnPatch :=
  patch.traceTurn.filter fun turn => s.nextTraceTurn ≤ turn.nextTraceTurn

/-- Every field by its own rule, read from the summary as it was. -/
def Summary.applyPatch (s : Summary) (patch : SummaryPatch) (now : ℕ) : Summary × Bool :=
  let titles := s.toTitles.patched patch
  ({ s with
      toTitles := titles.1
      lastActiveAt :=
        if patch.recordActivity then some (s.lastActiveAt.elim now (max · now)) else s.lastActiveAt
      numMessages := patch.messages.elim s.numMessages (·.apply s.numMessages)
      numChatMessages := (patch.chatOp s).elim s.numChatMessages (·.apply s.numChatMessages)
      chatFormatVersion := patch.chatFormatVersion.elim s.chatFormatVersion (max s.chatFormatVersion ·)
      cwdSwitchBookkeepingGeneration :=
        if patch.raisesGeneration s then
          patch.cwdSwitchBookkeepingGeneration.getD s.cwdSwitchBookkeepingGeneration
        else s.cwdSwitchBookkeepingGeneration
      nextTraceTurn := (patch.winningTurn s).elim s.nextTraceTurn (·.nextTraceTurn)
      requestId := ((patch.winningTurn s).bind (·.requestId)) <|> s.requestId
      attemptId := patch.attemptId <|> s.attemptId
      currentModelId := patch.model.elim s.currentModelId (·.modelId)
      agentName := patch.model.bind (·.agentName) <|> s.agentName
      reasoningEffort := (patch.model.bind (·.reasoningEffort)).getD s.reasoningEffort
      headCommit := patch.gitHead.elim s.headCommit (·.commit)
      headBranch := patch.gitHead.elim s.headBranch (·.branch)
      collectionId := patch.collectionId <|> s.collectionId
      lastTurnSummary := patch.lastTurnSummary.elim s.lastTurnSummary (·.map (·.1))
      lastTurnSummaryPromptId := patch.lastTurnSummary.elim s.lastTurnSummaryPromptId (·.map (·.2))
      lastRecap := patch.lastRecap.getD s.lastRecap
      sessionKind := s.sessionKind <|> patch.sessionKindIfAbsent
      updatedAt := now }, titles.2)

end Patch

section Writers

structure WorktreeIdentity where
  label : Str
  sourceWorkspaceDir : Option Str
deriving DecidableEq, Repr

structure SessionIdentity where
  agentId : Str
  attemptId : Str
deriving DecidableEq, Repr

/-- The summary as a wake found it; its bytes are what a restore writes. -/
structure WakeSummaryState where
  attemptId : Option Str
  nextTraceTurn : ℕ
  currentModelId : Str
  agentName : Option Str
  reasoningEffort : Option Str
  summaryBytes : Summary
deriving DecidableEq, Repr

structure WakeStart where
  attemptId : Str
  nextTraceTurn : ℕ
  modelId : Str
  agentName : Option Str := none
  reasoningEffort : Option (Option Str) := none
deriving DecidableEq, Repr

def worktreeSessionKind : Str := "worktree".toList

def Summary.repairWorktreeIdentity (s : Summary) (identity : WorktreeIdentity) : Summary :=
  if s.sessionKind.isNone then
    { s with
      sessionKind := some worktreeSessionKind
      worktreeLabel := some identity.label
      sourceWorkspaceDir := identity.sourceWorkspaceDir }
  else if s.worktreeLabel.isNone then { s with worktreeLabel := some identity.label }
  else s

/-- The agent id on disk, if it parses; a required one must not differ from it. -/
def Summary.liveAgentId (s : Summary) (parse : Str → Option Str) (required : Option Str) :
    Except Unit (Option Str) :=
  match required, s.agentId.bind parse with
  | some required, some live => if live ≠ required then .error () else .ok (some live)
  | some required, none => .ok (some required)
  | none, live => .ok live

def Summary.stampSessionIdentityIfAbsent (s : Summary) (parse : Str → Option Str)
    (required : Option Str) (mint : Option Str → SessionIdentity) (now : ℕ) : Except Unit Summary :=
  match s.liveAgentId parse required with
  | .error e => .error e
  | .ok live =>
    .ok { s with
          agentId := some (live.getD (mint live).agentId)
          attemptId := some (mint live).attemptId
          updatedAt := now }

/-- The summary with a wake's start published. -/
def Summary.wakeStarted (s : Summary) (start : WakeStart) (now : ℕ) : Summary :=
  { s with
    attemptId := some start.attemptId
    nextTraceTurn := start.nextTraceTurn
    currentModelId := start.modelId
    agentName := start.agentName <|> s.agentName
    reasoningEffort := start.reasoningEffort.getD s.reasoningEffort
    updatedAt := now }

def Summary.matchesPrior (s : Summary) (prior : WakeSummaryState) : Bool :=
  s.attemptId = prior.attemptId && s.nextTraceTurn = prior.nextTraceTurn &&
    s.currentModelId = prior.currentModelId && s.agentName = prior.agentName &&
    s.reasoningEffort = prior.reasoningEffort

def Summary.updateWakeStart (s : Summary) (prior : WakeSummaryState) (start : WakeStart)
    (aborted : Bool) (now : ℕ) : Except Unit Summary :=
  if aborted then .error ()
  else if s.matchesPrior prior then .ok (s.wakeStarted start now)
  else .error ()

inductive Op where
  | applyPatch (patch : SummaryPatch) (now : ℕ)
  | repairWorktreeIdentity (identity : WorktreeIdentity)
  | stampSessionIdentityIfAbsent (required : Option Str) (mint : Option Str → SessionIdentity)
      (now : ℕ)
  | updateWakeStart (prior : WakeSummaryState) (start : WakeStart) (aborted : Bool) (now : ℕ)
  | restoreWakeSummary (prior : WakeSummaryState)

/-- An operation as a writer makes it; `fails` says that its file is not renamed into place. -/
structure Write where
  op : Op
  fails : Bool := false

variable (parse : Str → Option Str)

/-- What the operation would write. -/
def Op.result (s : Summary) : Op → Except Unit Summary
  | .applyPatch patch now => .ok (s.applyPatch patch now).1
  | .repairWorktreeIdentity identity => .ok (s.repairWorktreeIdentity identity)
  | .stampSessionIdentityIfAbsent required mint now =>
    s.stampSessionIdentityIfAbsent parse required mint now
  | .updateWakeStart prior start aborted now => s.updateWakeStart prior start aborted now
  | .restoreWakeSummary prior => .ok prior.summaryBytes

/-- The file after an operation under the lock. -/
def writeStep (s : Summary) (write : Write) : Summary :=
  if write.fails then s
  else
    match write.op.result parse s with
    | .ok s' => s'
    | .error _ => s

end Writers

end GrokBuild.Summary
