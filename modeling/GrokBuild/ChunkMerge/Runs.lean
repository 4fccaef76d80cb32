import GrokBuild.ChunkMerge.Steps
import Mathlib.Data.List.Forall2

/-!
# What is sent comes from runs of the input

The input falls into runs of neighbours, and each notification that is sent stands for one run.
-/

namespace GrokBuild.ChunkMerge

open Text SessionNotification

variable {α : Type}

/-! ## Runs -/

/-- `R` holds of what one notification makes of itself and of what joining makes. -/
structure Carries (input : List (SessionNotification α))
    (R : List (SessionNotification α) → SessionNotification α → Prop) : Prop where
  single : ∀ n ∈ input, R [n] n
  join : ∀ run prev new joined, new ∈ input → R run prev → Joins prev new joined →
    R (run ++ [new]) joined

theorem Carries.tail {n : SessionNotification α} {input : List (SessionNotification α)}
    {R : List (SessionNotification α) → SessionNotification α → Prop}
    (h : Carries (n :: input) R) : Carries input R :=
  ⟨fun m hm => h.single m (List.mem_cons_of_mem n hm),
    fun run prev new joined hnew => h.join run prev new joined (List.mem_cons_of_mem n hnew)⟩

/-- The run of what waits, if anything does. -/
def Waits (R : List (SessionNotification α) → SessionNotification α → Prop)
    (run : List (SessionNotification α)) (pending : Option (SessionNotification α)) : Prop :=
  (pending = none ∧ run = []) ∨ ∃ prev, pending = some prev ∧ R run prev

/-- One step sends whole runs and leaves a run behind. -/
theorem ReplayBuffer.consumeChunk_runs
    {R : List (SessionNotification α) → SessionNotification α → Prop} {buffer : ReplayBuffer α}
    {incoming : SessionNotification α} {run : List (SessionNotification α)}
    (hsingle : R [incoming] incoming)
    (hjoin : ∀ prev joined, R run prev → Joins prev incoming joined → R (run ++ [incoming]) joined)
    (hsound : buffer.Sound) (hwaits : Waits R run buffer.pending) :
    ∃ (done : List (List (SessionNotification α))) (rest : List (SessionNotification α)),
      done.flatten ++ rest = run ++ [incoming] ∧
        List.Forall₂ R done (outcome (buffer.consumeChunk incoming)).1 ∧
          Waits R rest (outcome (buffer.consumeChunk incoming)).2 := by
  obtain ⟨hpending, rfl⟩ | ⟨prev, hpending, hrun⟩ := hwaits
  · obtain hsent | hkept := consumeChunk_none hpending
    · rw [hsent]
      exact ⟨[[incoming]], [], rfl, .cons hsingle .nil, .inl ⟨rfl, rfl⟩⟩
    · rw [hkept]
      exact ⟨[], [incoming], rfl, .nil, .inr ⟨incoming, rfl, hsingle⟩⟩
  · obtain hboth | hprev | ⟨joined, hjoins, hsent | hkept⟩ :=
      consumeChunk_some hsound hpending
    · rw [hboth]
      refine ⟨[run, [incoming]], [], ?_, .cons hrun (.cons hsingle .nil), .inl ⟨rfl, rfl⟩⟩
      simp only [List.flatten_cons, List.flatten_nil, List.append_nil]
    · rw [hprev]
      refine ⟨[run], [incoming], ?_, .cons hrun .nil, .inr ⟨incoming, rfl, hsingle⟩⟩
      simp only [List.flatten_cons, List.flatten_nil, List.append_nil]
    · rw [hsent]
      refine ⟨[run ++ [incoming]], [], ?_, .cons (hjoin prev joined hrun hjoins) .nil,
        .inl ⟨rfl, rfl⟩⟩
      simp only [List.flatten_cons, List.flatten_nil, List.append_nil]
    · rw [hkept]
      exact ⟨[], run ++ [incoming], rfl, .nil, .inr ⟨joined, rfl, hjoin prev joined hrun hjoins⟩⟩

/-- The runs in order are what waited and then the input. -/
theorem ReplayBuffer.sendAll_runs {R : List (SessionNotification α) → SessionNotification α → Prop}
    {buffer : ReplayBuffer α} {run input : List (SessionNotification α)} (hR : Carries input R)
    (hsound : buffer.Sound) (hwaits : Waits R run buffer.pending) :
    ∃ runs : List (List (SessionNotification α)), runs.flatten = run ++ input ∧
      List.Forall₂ R runs (buffer.sendAll input) := by
  induction input generalizing buffer run with
  | nil =>
    obtain ⟨hpending, rfl⟩ | ⟨prev, hpending, hrun⟩ := hwaits
    · refine ⟨[], rfl, ?_⟩
      rw [sendAll, flush, hpending]
      exact .nil
    · refine ⟨[run], rfl, ?_⟩
      rw [sendAll, flush, hpending]
      exact .cons hrun .nil
  | cons incoming input ih =>
    have hnext : (buffer.consumeChunk incoming).1.Sound := by
      intro hsettings
      rw [consumeChunk_settings] at hsettings
      have hpending := hsound hsettings
      unfold consumeChunk
      rw [hsettings]
      exact hpending
    obtain ⟨done, rest, hflatten, hdone, hrest⟩ := consumeChunk_runs
      (hR.single incoming List.mem_cons_self)
      (fun prev joined => hR.join run prev incoming joined List.mem_cons_self) hsound hwaits
    obtain ⟨runs, hruns, hforall⟩ := ih hR.tail hnext hrest
    refine ⟨done ++ runs, ?_, ?_⟩
    · rw [List.flatten_append, hruns, ← List.append_assoc, hflatten, List.append_assoc]
      rfl
    · rw [sendAll]
      exact List.rel_append hdone hforall

/-! ## Tool calls -/

/-- The chunks of one tool call: whoever takes chunks for parts of one call whenever the ids agree,
or an id is missing and the indexes agree, finds one call here. -/
def OneCall (deltas : List ToolCallDelta) : Prop :=
  (∀ (γ : Type) (call : ToolCallDelta → γ),
    (∀ d ∈ deltas, ∀ e ∈ deltas,
      sameToolCall d.toolCallId e.toolCallId d.toolIndex e.toolIndex → call d = call e) →
    ∀ d ∈ deltas, ∀ e ∈ deltas, call d = call e) ∧
  ∀ d ∈ deltas, ∀ e ∈ deltas, ∀ a b, d.toolCallId = some a → e.toolCallId = some b → a = b

/-- The id is that of the chunks that have one, and the index that of the first. -/
structure Heads (deltas : List ToolCallDelta) (joined : ToolCallDelta) : Prop where
  oneCall : OneCall deltas
  ids : ∀ d ∈ deltas, ∀ a, d.toolCallId = some a → joined.toolCallId = some a
  id_mem : ∀ a, joined.toolCallId = some a → ∃ d ∈ deltas, d.toolCallId = some a
  index_mem : ∃ d ∈ deltas, d.toolIndex = joined.toolIndex

theorem heads_single (d : ToolCallDelta) : Heads [d] d where
  oneCall := by
    refine ⟨fun γ call _ e he f hf => ?_, fun e he f hf a b ha hb => ?_⟩
    · rw [List.mem_singleton.mp he, List.mem_singleton.mp hf]
    · rw [List.mem_singleton.mp he] at ha
      rw [List.mem_singleton.mp hf, ha] at hb
      exact Option.some.inj hb
  ids := by
    intro e he a ha
    rwa [List.mem_singleton.mp he] at ha
  id_mem := fun a ha => ⟨d, List.mem_singleton_self d, ha⟩
  index_mem := ⟨d, List.mem_singleton_self d, rfl⟩

theorem sameToolCall_none_left (b : Option Str) (i j : ℕ) :
    sameToolCall none b i j = decide (i = j) := rfl

theorem sameToolCall_none_right (a : Option Str) (i j : ℕ) :
    sameToolCall a none i j = decide (i = j) := by
  cases a with
  | none => rfl
  | some _ => rfl

/-- A chunk that fits what was joined fits one of the chunks before it. -/
theorem Heads.exists_same {deltas : List ToolCallDelta} {joined new : ToolCallDelta}
    (h : Heads deltas joined)
    (hsame : sameToolCall joined.toolCallId new.toolCallId joined.toolIndex new.toolIndex) :
    ∃ d ∈ deltas, sameToolCall d.toolCallId new.toolCallId d.toolIndex new.toolIndex := by
  obtain ⟨first, hfirst, hindex⟩ := h.index_mem
  cases hid : joined.toolCallId with
  | none =>
    -- no chunk before has an id, so the indexes were compared
    have hnone : first.toolCallId = none := by
      cases hfirstId : first.toolCallId with
      | none => rfl
      | some a =>
        rw [h.ids first hfirst a hfirstId] at hid
        cases hid
    rw [hid, sameToolCall_none_left] at hsame
    refine ⟨first, hfirst, ?_⟩
    rw [hnone, sameToolCall_none_left, hindex]
    exact hsame
  | some a =>
    cases hnew : new.toolCallId with
    | none =>
      rw [hnew, sameToolCall_none_right] at hsame
      refine ⟨first, hfirst, ?_⟩
      rw [sameToolCall_none_right, hindex]
      exact hsame
    | some b =>
      obtain ⟨d, hd, hdId⟩ := h.id_mem a hid
      rw [hid, hnew] at hsame
      refine ⟨d, hd, ?_⟩
      rw [hdId]
      exact hsame

/-- Two ids in the run of a joined chunk and the next one are equal. -/
theorem Heads.id_eq {deltas : List ToolCallDelta} {joined new d : ToolCallDelta} {a b : Str}
    (h : Heads deltas joined)
    (hsame : sameToolCall joined.toolCallId new.toolCallId joined.toolIndex new.toolIndex)
    (hd : d ∈ deltas) (ha : d.toolCallId = some a) (hb : new.toolCallId = some b) : a = b := by
  rw [h.ids d hd a ha, hb] at hsame
  exact of_decide_eq_true hsame

theorem Heads.concat {deltas : List ToolCallDelta} {prev new joined : ToolCallDelta}
    (h : Heads deltas prev)
    (hsame : sameToolCall prev.toolCallId new.toolCallId prev.toolIndex new.toolIndex)
    (hid : joined.toolCallId = prev.toolCallId.or new.toolCallId)
    (hindex : joined.toolIndex = prev.toolIndex) : Heads (deltas ++ [new]) joined where
  oneCall := by
    constructor
    · intro γ call hcall
      obtain ⟨d, hd, hdNew⟩ := h.exists_same hsame
      have hold := h.oneCall.1 γ call fun e he f hf =>
        hcall e (List.mem_append_left _ he) f (List.mem_append_left _ hf)
      have hnew : call d = call new := hcall d (List.mem_append_left _ hd) new
        (List.mem_append_right _ (List.mem_singleton_self new)) hdNew
      have hall : ∀ e ∈ deltas ++ [new], call e = call new := by
        intro e he
        obtain he | he := List.mem_append.mp he
        · rw [hold e he d hd, hnew]
        · rw [List.mem_singleton.mp he]
      intro e he f hf
      rw [hall e he, hall f hf]
    · intro e he f hf a b ha hb
      obtain he | he := List.mem_append.mp he
      · obtain hf | hf := List.mem_append.mp hf
        · exact h.oneCall.2 e he f hf a b ha hb
        · rw [List.mem_singleton.mp hf] at hb
          exact h.id_eq hsame he ha hb
      · rw [List.mem_singleton.mp he] at ha
        obtain hf | hf := List.mem_append.mp hf
        · exact (h.id_eq hsame hf hb ha).symm
        · rw [List.mem_singleton.mp hf, ha] at hb
          exact Option.some.inj hb
  ids := by
    intro d hd a ha
    rw [hid]
    obtain hd | hd := List.mem_append.mp hd
    · rw [h.ids d hd a ha]
      rfl
    · rw [List.mem_singleton.mp hd] at ha
      cases hprev : prev.toolCallId with
      | none => exact ha
      | some b =>
        obtain ⟨e, he, heId⟩ := h.id_mem b hprev
        rw [h.id_eq hsame he heId ha]
        rfl
  id_mem := by
    intro a ha
    rw [hid, Option.or_eq_some_iff] at ha
    obtain hprev | ⟨-, hnew⟩ := ha
    · obtain ⟨d, hd, hdId⟩ := h.id_mem a hprev
      exact ⟨d, List.mem_append_left _ hd, hdId⟩
    · exact ⟨new, List.mem_append_right _ (List.mem_singleton_self new), hnew⟩
  index_mem := by
    obtain ⟨d, hd, hdIndex⟩ := h.index_mem
    exact ⟨d, List.mem_append_left _ hd, hdIndex.trans hindex.symm⟩

/-! ## Merged runs -/

/-- A run of one comes out as it is. In a longer run all are of one session and one kind, and the
text is put together in order. -/
structure MergedRun (run : List (SessionNotification α)) (sent : SessionNotification α) :
    Prop where
  whole : run = [sent] ∨ ∃ sessionId kind, ∃ texts : List Str,
    run.map SessionNotification.chunk = texts.map (fun text => some ⟨sessionId, kind, text⟩) ∧
      sent.chunk = some ⟨sessionId, kind, texts.flatten⟩
  unmergeable : ∀ n ∈ run, n.chunk = none → run = [n] ∧ sent = n
  oneCall : OneCall (run.filterMap SessionNotification.delta?)

/-- The deltas of the run behind what waits. -/
def DeltasOf (run : List (SessionNotification α)) (sent : SessionNotification α) : Prop :=
  (sent.delta? = none ∧ run.filterMap SessionNotification.delta? = []) ∨
    ∃ d, sent.delta? = some d ∧ Heads (run.filterMap SessionNotification.delta?) d

theorem DeltasOf.oneCall {run : List (SessionNotification α)} {sent : SessionNotification α}
    (h : DeltasOf run sent) : OneCall (run.filterMap SessionNotification.delta?) := by
  obtain ⟨-, hnil⟩ | ⟨d, -, hheads⟩ := h
  · rw [hnil]
    exact ⟨fun _ _ _ d hd => absurd hd List.not_mem_nil, fun d hd => absurd hd List.not_mem_nil⟩
  · exact hheads.oneCall

theorem deltasOf_single (n : SessionNotification α) : DeltasOf [n] n := by
  cases hdelta : n.delta? with
  | none => exact .inl ⟨hdelta, by rw [List.filterMap_cons_none hdelta, List.filterMap_nil]⟩
  | some d =>
    refine .inr ⟨d, hdelta, ?_⟩
    rw [List.filterMap_cons_some hdelta, List.filterMap_nil]
    exact heads_single d

theorem DeltasOf.join {run : List (SessionNotification α)} {prev new joined : SessionNotification α}
    (h : DeltasOf run prev) (hjoins : Joins prev new joined) : DeltasOf (run ++ [new]) joined := by
  obtain ⟨hprev, hnew, hjoined⟩ | ⟨d, e, f, hprev, hnew, hjoined, hsame, hid, hindex⟩ :=
    hjoins.deltas
  · obtain ⟨-, hnil⟩ | ⟨d, hd, -⟩ := h
    · refine .inl ⟨hjoined, ?_⟩
      rw [List.filterMap_append, hnil, List.filterMap_cons_none hnew]
      rfl
    · rw [hprev] at hd
      cases hd
  · obtain ⟨hnone, -⟩ | ⟨d', hd', hheads⟩ := h
    · rw [hprev] at hnone
      cases hnone
    · rw [hprev, Option.some.injEq] at hd'
      subst hd'
      refine .inr ⟨f, hjoined, ?_⟩
      rw [List.filterMap_append, List.filterMap_cons_some hnew, List.filterMap_nil]
      exact hheads.concat hsame hid hindex

/-- The texts of the run behind a chunk. -/
theorem MergedRun.texts {run : List (SessionNotification α)} {sent : SessionNotification α}
    {sessionId text : Str} {kind : Kind} (h : MergedRun run sent)
    (hchunk : sent.chunk = some ⟨sessionId, kind, text⟩) :
    ∃ texts : List Str, run.map SessionNotification.chunk =
      texts.map (fun text => some ⟨sessionId, kind, text⟩) ∧ texts.flatten = text := by
  obtain rfl | ⟨sessionId', kind', texts, hrun, hsent⟩ := h.whole
  · refine ⟨[text], ?_, List.append_nil text⟩
    rw [List.map_cons, hchunk]
    rfl
  · rw [hchunk, Option.some.injEq, Chunk.mk.injEq] at hsent
    obtain ⟨rfl, rfl, htext⟩ := hsent
    exact ⟨texts, hrun, htext.symm⟩

theorem MergedRun.join {run : List (SessionNotification α)}
    {prev new joined : SessionNotification α} (h : MergedRun run prev) (hdeltas : DeltasOf run prev)
    (hjoins : Joins prev new joined) : MergedRun (run ++ [new]) joined := by
  obtain ⟨sessionId, kind, s, t, hprev, hnew, hjoined⟩ := hjoins.chunks
  obtain ⟨texts, hrun, htexts⟩ := h.texts hprev
  have hmap : (run ++ [new]).map SessionNotification.chunk =
      (texts ++ [t]).map (fun text => some ⟨sessionId, kind, text⟩) := by
    rw [List.map_append, List.map_append, hrun, List.map_cons, hnew]
    rfl
  refine ⟨.inr ⟨sessionId, kind, texts ++ [t], hmap, ?_⟩, ?_, (hdeltas.join hjoins).oneCall⟩
  · rw [hjoined, List.flatten_append, htexts, List.flatten_cons, List.flatten_nil, List.append_nil]
  · intro n hn hnone
    have hmem : (none : Option Chunk) ∈ (run ++ [new]).map SessionNotification.chunk :=
      hnone ▸ List.mem_map_of_mem hn
    rw [hmap, List.mem_map] at hmem
    obtain ⟨_, -, hsome⟩ := hmem
    cases hsome

theorem carries_merged (input : List (SessionNotification α)) :
    Carries input fun run sent => MergedRun run sent ∧ DeltasOf run sent where
  single := fun n _ => by
    refine ⟨⟨.inl rfl, fun m hm _ => ?_, (deltasOf_single n).oneCall⟩, deltasOf_single n⟩
    rw [List.mem_singleton.mp hm]
    exact ⟨rfl, rfl⟩
  join := fun run prev new joined _ h hjoins => ⟨h.1.join h.2 hjoins, h.2.join hjoins⟩

end GrokBuild.ChunkMerge
