import GrokBuild.Summary.Write

/-!
# Lost updates of the summary

No update is lost as long as a wake restores the summary only where nothing but its own start has
changed it, and no start lowers the trace turn.
-/

namespace GrokBuild.Summary

open GrokBuild.Text

variable (parse : Str → Option Str)

section Fields

inductive Field where
  | titles
  | numMessages
  | numChatMessages
  | lastActiveAt
  | updatedAt
  | chatFormatVersion
  | cwdSwitchBookkeepingGeneration
  | nextTraceTurn
  | requestId
  | agentId
  | attemptId
  | currentModelId
  | agentName
  | reasoningEffort
  | gitHead
  | collectionId
  | lastTurnSummary
  | lastRecap
  | sessionKind
  | worktreeLabel
  | sourceWorkspaceDir
  | rest
deriving DecidableEq, Repr

/-- Two summaries have the same in a field. -/
def Same (s s' : Summary) : Field → Prop
  | .titles => s'.toTitles = s.toTitles
  | .numMessages => s'.numMessages = s.numMessages
  | .numChatMessages => s'.numChatMessages = s.numChatMessages
  | .lastActiveAt => s'.lastActiveAt = s.lastActiveAt
  | .updatedAt => s'.updatedAt = s.updatedAt
  | .chatFormatVersion => s'.chatFormatVersion = s.chatFormatVersion
  | .cwdSwitchBookkeepingGeneration =>
    s'.cwdSwitchBookkeepingGeneration = s.cwdSwitchBookkeepingGeneration
  | .nextTraceTurn => s'.nextTraceTurn = s.nextTraceTurn
  | .requestId => s'.requestId = s.requestId
  | .agentId => s'.agentId = s.agentId
  | .attemptId => s'.attemptId = s.attemptId
  | .currentModelId => s'.currentModelId = s.currentModelId
  | .agentName => s'.agentName = s.agentName
  | .reasoningEffort => s'.reasoningEffort = s.reasoningEffort
  | .gitHead => s'.headCommit = s.headCommit ∧ s'.headBranch = s.headBranch
  | .collectionId => s'.collectionId = s.collectionId
  | .lastTurnSummary => s'.lastTurnSummary = s.lastTurnSummary ∧
      s'.lastTurnSummaryPromptId = s.lastTurnSummaryPromptId
  | .lastRecap => s'.lastRecap = s.lastRecap
  | .sessionKind => s'.sessionKind = s.sessionKind
  | .worktreeLabel => s'.worktreeLabel = s.worktreeLabel
  | .sourceWorkspaceDir => s'.sourceWorkspaceDir = s.sourceWorkspaceDir
  | .rest => s'.rest = s.rest

theorem same_refl (s : Summary) (field : Field) : Same s s field := by
  cases field <;> first | exact rfl | exact ⟨rfl, rfl⟩

/-- The fields that a patch names. A cwd switch counts a chat line. -/
def SummaryPatch.names (patch : SummaryPatch) : Field → Bool
  | .titles => patch.resetTitleToAuto || patch.generatedTitle.isSome ||
      patch.generatedTitleRegenerate.isSome || patch.generatedTitleIfAbsent.isSome
  | .numMessages => patch.messages.isSome
  | .numChatMessages => patch.chatMessages.isSome || patch.cwdSwitchBookkeepingGeneration.isSome
  | .lastActiveAt => patch.recordActivity
  | .updatedAt => true
  | .chatFormatVersion => patch.chatFormatVersion.isSome
  | .cwdSwitchBookkeepingGeneration => patch.cwdSwitchBookkeepingGeneration.isSome
  | .nextTraceTurn => patch.traceTurn.isSome
  | .requestId => patch.traceTurn.any (·.requestId.isSome)
  | .attemptId => patch.attemptId.isSome
  | .currentModelId => patch.model.isSome
  | .agentName => patch.model.any (·.agentName.isSome)
  | .reasoningEffort => patch.model.any (·.reasoningEffort.isSome)
  | .gitHead => patch.gitHead.isSome
  | .collectionId => patch.collectionId.isSome
  | .lastTurnSummary => patch.lastTurnSummary.isSome
  | .lastRecap => patch.lastRecap.isSome
  | .sessionKind => patch.sessionKindIfAbsent.isSome
  | .agentId | .worktreeLabel | .sourceWorkspaceDir | .rest => false

/-- The fields of a wake's start. -/
def wakeNames : Field → Bool
  | .attemptId | .nextTraceTurn | .currentModelId | .agentName | .reasoningEffort | .updatedAt => true
  | _ => false

def Op.names (field : Field) : Op → Bool
  | .applyPatch patch _ => patch.names field
  | .repairWorktreeIdentity _ =>
    field = .sessionKind || field = .worktreeLabel || field = .sourceWorkspaceDir
  | .stampSessionIdentityIfAbsent _ _ _ =>
    field = .agentId || field = .attemptId || field = .updatedAt
  | .updateWakeStart _ _ _ _ => wakeNames field
  | .restoreWakeSummary _ => wakeNames field

end Fields

section Property

/-- A restore where nothing but its own start has changed the summary. -/
def UndoesStart (s : Summary) (op : Op) : Prop :=
  ∃ prior start now, op = .restoreWakeSummary prior ∧ s = prior.summaryBytes.wakeStarted start now

/-- The operation sets a manual title or resets it. -/
def Op.managesTitle : Op → Bool
  | .applyPatch patch _ => patch.generatedTitle.isSome || patch.resetTitleToAuto
  | _ => false

/-- What an operation may do to the summary. -/
structure Respects (s : Summary) (op : Op) (s' : Summary) : Prop where
  frame : ∀ field, op.names field = false → Same s s' field
  lastActiveAt : ∀ t, s.lastActiveAt = some t → ∃ t', s'.lastActiveAt = some t' ∧ t ≤ t'
  chatFormatVersion : s.chatFormatVersion ≤ s'.chatFormatVersion
  generation : s.cwdSwitchBookkeepingGeneration ≤ s'.cwdSwitchBookkeepingGeneration
  nextTraceTurn : s.nextTraceTurn ≤ s'.nextTraceTurn ∨ UndoesStart s op
  requestId : s'.requestId = s.requestId ∨ ∃ patch now turn, op = .applyPatch patch now ∧
    patch.traceTurn = some turn ∧ turn.requestId = s'.requestId ∧
      s.nextTraceTurn ≤ turn.nextTraceTurn ∧ s'.nextTraceTurn = turn.nextTraceTurn
  manualTitle : s.manualTitleOpt.isSome = true → s'.toTitles = s.toTitles ∨ op.managesTitle = true

/-- The operation on a counter that a write makes, if it takes effect. -/
def Write.messageOp (write : Write) : Option CounterOp :=
  match write.op with
  | .applyPatch patch _ => if write.fails then none else patch.messages
  | _ => none

def Write.chatOp (write : Write) (s : Summary) : Option CounterOp :=
  match write.op with
  | .applyPatch patch _ => if write.fails then none else patch.chatOp s
  | _ => none

/-- The operations on a counter along a run. -/
def counterOps (opOf : Write → Summary → Option CounterOp) : Summary → List Write → List CounterOp
  | _, [] => []
  | s, write :: writes => (opOf write s).toList ++ counterOps opOf (writeStep parse s write) writes

/-- Every increment since the last set. -/
def accounted (base : ℕ) (ops : List CounterOp) : ℕ :=
  ops.foldl (fun total op => match op with
    | .increment n => total + n
    | .set n => n) base

/-- In a run from `s` no update is lost: each operation respects the fields it does not name and
the rules of those it does, and the counters account for all increments that they can hold. -/
structure NoUpdateLost (s : Summary) (writes : List Write) : Prop where
  respects : ∀ before write after, writes = before ++ write :: after →
    Respects (StepRun.run (writeStep parse) s before) write.op
      (StepRun.run (writeStep parse) s (before ++ [write]))
  numMessages : accounted s.numMessages (counterOps parse (fun w _ => w.messageOp) s writes) ≤ usizeMax →
    (StepRun.run (writeStep parse) s writes).numMessages =
      accounted s.numMessages (counterOps parse (fun w _ => w.messageOp) s writes)
  numChatMessages : accounted s.numChatMessages (counterOps parse Write.chatOp s writes) ≤ usizeMax →
    (StepRun.run (writeStep parse) s writes).numChatMessages =
      accounted s.numChatMessages (counterOps parse Write.chatOp s writes)

/-- A start does not lower the trace turn, and a restore undoes its own start or nothing. -/
def Guarded (s : Summary) (write : Write) : Prop :=
  write.fails = false →
    match write.op with
    | .updateWakeStart _ start _ _ => s.nextTraceTurn ≤ start.nextTraceTurn
    | .restoreWakeSummary prior => s = prior.summaryBytes ∨ UndoesStart s write.op
    | _ => True

end Property

section Steps

variable {s : Summary}

theorem mem_trim {x : Str} {c : Char} (hc : c ∈ x) (hws : isWhitespace c = false) : c ∈ trim x := by
  rw [← List.takeWhile_append_dropWhile (p := isWhitespace) (l := x), List.mem_append] at hc
  have hdrop : c ∈ trimStart x := hc.resolve_left fun htake => by
    rw [List.mem_takeWhile_imp htake] at hws
    cases hws
  rw [← List.rdropWhile_append_rtakeWhile (p := isWhitespace) (l := trimStart x),
    List.mem_append] at hdrop
  exact hdrop.resolve_right fun htake => by
    rw [List.mem_rtakeWhile_imp htake] at hws
    cases hws

theorem trim_trim_ne {x : Str} (h : trim x ≠ []) : trim (trim x) ≠ [] := by
  rw [Ne, trim_eq_nil_iff] at h ⊢
  push Not at h ⊢
  obtain ⟨c, hc, hws⟩ := h
  exact ⟨c, mem_trim hc (by simpa using hws), hws⟩

theorem patched_of_manual {t : Titles} {patch : SummaryPatch} (h : t.manualTitleOpt.isSome = true)
    (hmanual : patch.generatedTitle = none) (hreset : patch.resetTitleToAuto = false) :
    (t.patched patch).1 = t := by
  have hflag : t.titleIsManual = true := by
    by_contra hnot
    simp [Titles.manualTitleOpt, hnot] at h
  rw [Titles.manualTitleOpt, if_pos hflag] at h
  obtain ⟨title, htitle⟩ := Option.isSome_iff_exists.1 h
  have hne : title ≠ [] := of_decide_eq_true (Option.filter_eq_some_iff.1 htitle).2
  have hdisplay : trim t.displayTitle ≠ [] := by
    obtain ⟨generated, -, rfl⟩ := Option.map_eq_some_iff.1 (Option.filter_eq_some_iff.1 htitle).1
    rw [Titles.displayTitle, htitle, Option.getD_some]
    exact trim_trim_ne hne
  rw [Titles.patched, hreset, if_neg Bool.false_ne_true, hmanual]
  cases patch.generatedTitleRegenerate with
  | some _ => simp [hflag]
  | none =>
    cases patch.generatedTitleIfAbsent with
    | some _ => simp [hdisplay]
    | none => rfl

theorem respects_refl (op : Op) : Respects s op s where
  frame field _ := same_refl s field
  lastActiveAt t ht := ⟨t, ht, le_rfl⟩
  chatFormatVersion := le_rfl
  generation := le_rfl
  nextTraceTurn := .inl le_rfl
  requestId := .inl rfl
  manualTitle _ := .inl rfl

theorem respects_applyPatch (patch : SummaryPatch) (now : ℕ) :
    Respects s (.applyPatch patch now) (s.applyPatch patch now).1 where
  frame field hname := by
    rw [Op.names] at hname
    cases field with
    | titles =>
      simp only [SummaryPatch.names, Bool.or_eq_false_iff, Option.isSome_eq_false_iff,
        Option.isNone_iff_eq_none] at hname
      simp [Same, Summary.applyPatch, Titles.patched, hname]
    | numChatMessages =>
      simp only [SummaryPatch.names, Bool.or_eq_false_iff, Option.isSome_eq_false_iff,
        Option.isNone_iff_eq_none] at hname
      simp [Same, Summary.applyPatch, SummaryPatch.chatOp, SummaryPatch.raisesGeneration, hname]
    | nextTraceTurn =>
      simp only [SummaryPatch.names, Option.isSome_eq_false_iff, Option.isNone_iff_eq_none] at hname
      simp [Same, Summary.applyPatch, SummaryPatch.winningTurn, hname]
    | requestId =>
      have hid : (patch.winningTurn s).bind (·.requestId) = none := by
        rw [SummaryPatch.names] at hname
        rw [SummaryPatch.winningTurn]
        cases hturn : patch.traceTurn with
        | none => rfl
        | some turn =>
          rw [hturn] at hname
          have hnone : turn.requestId = none := by simpa using hname
          rw [Option.filter_some]
          split
          · exact hnone
          · rfl
      simp [Same, Summary.applyPatch, hid]
    | agentName =>
      have hid : patch.model.bind (·.agentName) = none := by
        rw [SummaryPatch.names] at hname
        cases hmodel : patch.model with
        | none => rfl
        | some model => simpa [hmodel] using hname
      simp [Same, Summary.applyPatch, hid]
    | reasoningEffort =>
      have hid : patch.model.bind (·.reasoningEffort) = none := by
        rw [SummaryPatch.names] at hname
        cases hmodel : patch.model with
        | none => rfl
        | some model => simpa [hmodel] using hname
      simp [Same, Summary.applyPatch, hid]
    | updatedAt => cases hname
    | agentId => rfl
    | worktreeLabel => rfl
    | sourceWorkspaceDir => rfl
    | rest => rfl
    | _ =>
      simp [SummaryPatch.names] at hname
      simp [Same, Summary.applyPatch, hname]
  lastActiveAt t ht := by
    change ∃ t', (if patch.recordActivity then some (s.lastActiveAt.elim now (max · now))
      else s.lastActiveAt) = some t' ∧ t ≤ t'
    split
    · rw [ht]
      exact ⟨max t now, rfl, le_max_left t now⟩
    · exact ⟨t, ht, le_rfl⟩
  chatFormatVersion := by
    change _ ≤ patch.chatFormatVersion.elim s.chatFormatVersion (max s.chatFormatVersion ·)
    cases patch.chatFormatVersion with
    | none => exact le_rfl
    | some version => exact le_max_left _ _
  generation := by
    change _ ≤ if patch.raisesGeneration s then
      patch.cwdSwitchBookkeepingGeneration.getD s.cwdSwitchBookkeepingGeneration
      else s.cwdSwitchBookkeepingGeneration
    split
    · next hraises =>
      rw [SummaryPatch.raisesGeneration] at hraises
      cases hgen : patch.cwdSwitchBookkeepingGeneration with
      | none => exact le_rfl
      | some generation =>
        rw [hgen] at hraises
        exact (of_decide_eq_true hraises).le
    · exact le_rfl
  nextTraceTurn := by
    refine .inl ?_
    change _ ≤ (patch.winningTurn s).elim s.nextTraceTurn (·.nextTraceTurn)
    cases hwins : patch.winningTurn s with
    | none => exact le_rfl
    | some turn => exact of_decide_eq_true (Option.filter_eq_some_iff.1 hwins).2
  requestId := by
    change ((patch.winningTurn s).bind (·.requestId) <|> s.requestId) = s.requestId ∨ _
    cases hwins : patch.winningTurn s with
    | none => exact .inl rfl
    | some turn =>
      cases hid : turn.requestId with
      | none => exact .inl (by simp [hid])
      | some id =>
        obtain ⟨hturn, hle⟩ := Option.filter_eq_some_iff.1 hwins
        refine .inr ⟨patch, now, turn, rfl, hturn, ?_, of_decide_eq_true hle, ?_⟩
        · simp [Summary.applyPatch, hwins, hid]
        · simp [Summary.applyPatch, hwins]
  manualTitle h := by
    cases hmanages : (Op.applyPatch patch now).managesTitle with
    | true => exact .inr rfl
    | false =>
      rw [Op.managesTitle, Bool.or_eq_false_iff] at hmanages
      exact .inl (patched_of_manual h (by simpa using hmanages.1) hmanages.2)

theorem respects_repairWorktreeIdentity (identity : WorktreeIdentity) :
    Respects s (.repairWorktreeIdentity identity) (s.repairWorktreeIdentity identity) := by
  rw [Summary.repairWorktreeIdentity]
  split
  · refine ⟨fun field hname => ?_, fun t ht => ⟨t, ht, le_rfl⟩, le_rfl, le_rfl, .inl le_rfl, .inl rfl,
      fun _ => .inl rfl⟩
    cases field <;> first | exact rfl | exact ⟨rfl, rfl⟩ | (simp [Op.names] at hname)
  split
  · refine ⟨fun field hname => ?_, fun t ht => ⟨t, ht, le_rfl⟩, le_rfl, le_rfl, .inl le_rfl, .inl rfl,
      fun _ => .inl rfl⟩
    cases field <;> first | exact rfl | exact ⟨rfl, rfl⟩ | (simp [Op.names] at hname)
  · exact respects_refl _

theorem respects_stamp {required : Option Str} {mint : Option Str → SessionIdentity} {now : ℕ}
    {s' : Summary} (h : s.stampSessionIdentityIfAbsent parse required mint now = .ok s') :
    Respects s (.stampSessionIdentityIfAbsent required mint now) s' := by
  rw [Summary.stampSessionIdentityIfAbsent] at h
  cases hlive : s.liveAgentId parse required with
  | error e =>
    rw [hlive] at h
    cases h
  | ok live =>
    rw [hlive] at h
    obtain rfl := Except.ok.inj h
    refine ⟨fun field hname => ?_, fun t ht => ⟨t, ht, le_rfl⟩, le_rfl, le_rfl, .inl le_rfl, .inl rfl,
      fun _ => .inl rfl⟩
    cases field <;> first | exact rfl | exact ⟨rfl, rfl⟩ | (simp [Op.names] at hname)

/-- Two summaries that differ in the fields of a wake's start at most. -/
theorem same_wakeStarted (s : Summary) (start : WakeStart) (now : ℕ) {field : Field}
    (h : wakeNames field = false) : Same s (s.wakeStarted start now) field := by
  cases field <;> first | exact rfl | exact ⟨rfl, rfl⟩ | cases h

theorem Same.symm {s s' : Summary} {field : Field} (h : Same s s' field) : Same s' s field := by
  cases field <;> first | exact Eq.symm h | exact ⟨h.1.symm, h.2.symm⟩

theorem respects_wakeStarted {prior : WakeSummaryState} {start : WakeStart} {aborted : Bool} {now : ℕ}
    (hle : s.nextTraceTurn ≤ start.nextTraceTurn) :
    Respects s (.updateWakeStart prior start aborted now) (s.wakeStarted start now) :=
  ⟨fun _ hname => same_wakeStarted s start now hname, fun t ht => ⟨t, ht, le_rfl⟩, le_rfl, le_rfl,
    .inl hle, .inl rfl, fun _ => .inl rfl⟩

theorem respects_restore {prior : WakeSummaryState}
    (h : s = prior.summaryBytes ∨ UndoesStart s (.restoreWakeSummary prior)) :
    Respects s (.restoreWakeSummary prior) prior.summaryBytes := by
  rcases h with rfl | hundoes
  · exact respects_refl _
  · obtain ⟨prior', start, now, hop, rfl⟩ := hundoes
    obtain rfl := Op.restoreWakeSummary.inj hop
    exact ⟨fun _ hname => (same_wakeStarted _ start now hname).symm, fun t ht => ⟨t, ht, le_rfl⟩,
      le_rfl, le_rfl, .inr ⟨prior, start, now, rfl, rfl⟩, .inl rfl, fun _ => .inl rfl⟩

/-- What a guarded write may do. -/
theorem respects_writeStep {write : Write} (h : Guarded s write) :
    Respects s write.op (writeStep parse s write) := by
  rw [writeStep]
  split
  · exact respects_refl _
  · next hfails =>
    have hguard := h (eq_false_of_ne_true hfails)
    obtain ⟨op, fails⟩ := write
    dsimp only at hguard ⊢
    cases op with
    | applyPatch patch now => exact respects_applyPatch patch now
    | repairWorktreeIdentity identity => exact respects_repairWorktreeIdentity identity
    | stampSessionIdentityIfAbsent required mint now =>
      cases hresult : s.stampSessionIdentityIfAbsent parse required mint now with
      | ok s' =>
        simp only [Op.result, hresult]
        exact respects_stamp parse hresult
      | error e =>
        simp only [Op.result, hresult]
        exact respects_refl _
    | updateWakeStart prior start aborted now =>
      simp only [Op.result, Summary.updateWakeStart]
      cases aborted with
      | true => exact respects_refl _
      | false =>
        cases s.matchesPrior prior with
        | true => exact respects_wakeStarted hguard
        | false => exact respects_refl _
    | restoreWakeSummary prior => exact respects_restore hguard

/-- A guarded write makes the operation on a counter that it names, and no other. -/
theorem counters_writeStep {write : Write} (h : Guarded s write) :
    (writeStep parse s write).numMessages =
        write.messageOp.elim s.numMessages (·.apply s.numMessages) ∧
      (writeStep parse s write).numChatMessages =
        (write.chatOp s).elim s.numChatMessages (·.apply s.numChatMessages) := by
  have hrespects := respects_writeStep parse h
  obtain ⟨op, fails⟩ := write
  cases op with
  | applyPatch patch now =>
    cases fails with
    | true => exact ⟨rfl, rfl⟩
    | false => exact ⟨rfl, rfl⟩
  | repairWorktreeIdentity identity =>
    exact ⟨hrespects.frame .numMessages rfl, hrespects.frame .numChatMessages rfl⟩
  | stampSessionIdentityIfAbsent required mint now =>
    exact ⟨hrespects.frame .numMessages rfl, hrespects.frame .numChatMessages rfl⟩
  | updateWakeStart prior start aborted now =>
    exact ⟨hrespects.frame .numMessages rfl, hrespects.frame .numChatMessages rfl⟩
  | restoreWakeSummary prior =>
    exact ⟨hrespects.frame .numMessages rfl, hrespects.frame .numChatMessages rfl⟩

end Steps

section Runs

theorem accounted_append (base : ℕ) (ops ops' : List CounterOp) :
    accounted base (ops ++ ops') = accounted (accounted base ops) ops' := by
  rw [accounted, accounted, accounted, List.foldl_append]

/-- An account that starts too high and ends in bounds has been set. -/
theorem accounted_of_full {base : ℕ} {ops : List CounterOp} (hfull : usizeMax < base)
    (hfits : accounted base ops ≤ usizeMax) (base' : ℕ) :
    accounted base' ops = accounted base ops := by
  induction ops generalizing base base' with
  | nil => exact absurd hfits (Nat.not_le.2 hfull)
  | cons op ops ih =>
    cases op with
    | increment n => exact ih (hfull.trans_le (Nat.le_add_right _ _)) hfits _
    | set n => rfl

/-- A counter that steps through the operations of a run has their account, if it can hold it. -/
theorem counter_run (counter : Summary → ℕ) (opOf : Write → Summary → Option CounterOp)
    {s : Summary} {writes : List Write}
    (hstep : ∀ s write, Guarded s write →
      counter (writeStep parse s write) = (opOf write s).elim (counter s) (·.apply (counter s)))
    (h : StepRun.Meets (writeStep parse) Guarded s writes)
    (hfits : accounted (counter s) (counterOps parse opOf s writes) ≤ usizeMax) :
    counter (StepRun.run (writeStep parse) s writes) =
      accounted (counter s) (counterOps parse opOf s writes) := by
  induction writes generalizing s with
  | nil => rfl
  | cons write writes ih =>
    rw [counterOps, accounted_append] at hfits ⊢
    rw [StepRun.run_cons]
    have hcounter := hstep s write h.1
    -- the counter is the account so far, unless it is full and will be set
    have hrest : accounted (counter (writeStep parse s write))
        (counterOps parse opOf (writeStep parse s write) writes) =
          accounted (accounted (counter s) (opOf write s).toList)
            (counterOps parse opOf (writeStep parse s write) writes) := by
      rw [hcounter]
      cases hop : opOf write s with
      | none => rfl
      | some op =>
        rw [hop] at hfits
        cases op with
        | set n => rfl
        | increment n =>
          change accounted (min (counter s + n) usizeMax) _ = accounted (counter s + n) _
          rcases Nat.lt_or_ge usizeMax (counter s + n) with hfull | hroom
          · exact accounted_of_full hfull hfits _
          · rw [Nat.min_eq_left hroom]
    rw [← hrest] at hfits ⊢
    exact ih h.2 hfits

theorem meets_at {s : Summary} {before after : List Write} {write : Write}
    (h : StepRun.Meets (writeStep parse) Guarded s (before ++ write :: after)) :
    Guarded (StepRun.run (writeStep parse) s before) write := by
  induction before generalizing s with
  | nil => exact h.1
  | cons w before ih => exact ih h.2

/-- No update is lost in a run whose starts do not lower the trace turn and whose restores undo
their own starts. -/
theorem noUpdateLost {s : Summary} {writes : List Write}
    (h : StepRun.Meets (writeStep parse) Guarded s writes) : NoUpdateLost parse s writes where
  respects before write after heq := by
    subst heq
    rw [StepRun.run_append]
    exact respects_writeStep parse (meets_at parse h)
  numMessages := counter_run parse Summary.numMessages _
    (fun _ _ hguard => (counters_writeStep parse hguard).1) h
  numChatMessages := counter_run parse Summary.numChatMessages _
    (fun _ _ hguard => (counters_writeStep parse hguard).2) h

/-- The state that a wake finds in a summary. -/
def wakeSummaryState (s : Summary) : WakeSummaryState :=
  ⟨s.attemptId, s.nextTraceTurn, s.currentModelId, s.agentName, s.reasoningEffort, s⟩

def oneMessage (now : ℕ) : Write :=
  { op := .applyPatch { messages := some (.increment 1) } now }

/-- A wake that starts, and then undoes its start. -/
theorem noUpdateLost_undone_wake :
    NoUpdateLost some {} [oneMessage 1,
      { op := .updateWakeStart (wakeSummaryState (writeStep some {} (oneMessage 1)))
          { attemptId := "a".toList, nextTraceTurn := 1, modelId := "m".toList } false 2 },
      { op := .restoreWakeSummary (wakeSummaryState (writeStep some {} (oneMessage 1))) }] := by
  refine noUpdateLost some ⟨fun _ => trivial, fun _ => ?_, fun _ => .inr ?_, trivial⟩
  · change 0 ≤ 1
    omega
  · exact ⟨_, _, 2, rfl, rfl⟩

/-- A message that another writer counts between the start of a wake and its restore. -/
theorem restore_loses_message :
    ¬∀ (s : Summary) (writes : List Write), NoUpdateLost some s writes := by
  intro h
  have hcount := (h {} [
    { op := .updateWakeStart (wakeSummaryState {})
        { attemptId := "a".toList, nextTraceTurn := 1, modelId := "m".toList } false 1 },
    oneMessage 2,
    { op := .restoreWakeSummary (wakeSummaryState {}) }]).numMessages
  exact absurd hcount (by decide)

end Runs

end GrokBuild.Summary
