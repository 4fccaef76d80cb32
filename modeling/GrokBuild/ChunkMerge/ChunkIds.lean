import Mathlib
import GrokBuild.ChunkMerge.Runs

/-!
# Chunk ids are kept

The ranges of what is sent expand to the ids that came in, in their order.
-/

namespace GrokBuild.ChunkMerge

open Text SessionNotification

variable {α : Type}

/-! ## Ranges -/

/-- An element of a range: an id, an id alone in an array, or a first and a last id. -/
def expandSegment (segment : Json) : List ℕ :=
  match chunkIdAsU64 segment with
  | some id => [id]
  | none =>
    match segment with
    | .array [first, last] =>
      match chunkIdAsU64 first, chunkIdAsU64 last with
      | some a, some b => List.range' a (b + 1 - a)
      | _, _ => []
    | .array [only] => (chunkIdAsU64 only).toList
    | _ => []

def expandRange : Json → List ℕ
  | .array segments => segments.flatMap expandSegment
  | _ => []

/-- `chunkId`, then `chunkIdRange`. -/
def metaIds (m : Meta) : List ℕ :=
  ((m.lookup chunkIdKey).bind chunkIdAsU64).toList ++
    ((m.lookup chunkIdRangeKey).map expandRange).getD []

/-- `id + 1` does not overflow. -/
def IdBound (ids : List ℕ) : Prop := ∀ id ∈ ids, id < 2 ^ 64 - 1

def SegmentOk : Json → Prop
  | .array [first, last] =>
    ∃ a b, chunkIdAsU64 first = some a ∧ chunkIdAsU64 last = some b ∧ a ≤ b
  | _ => True

theorem nextId_eq {id : ℕ} (h : id < 2 ^ 64 - 1) : nextId id = id + 1 := by
  rw [nextId, Nat.mod_eq_of_lt (by omega)]

theorem expandSegment_id (id : ℕ) : expandSegment (chunkIdJson id) = [id] := rfl

theorem expandSegment_pair (a b : ℕ) :
    expandSegment (.array [chunkIdJson a, chunkIdJson b]) = List.range' a (b + 1 - a) := rfl

theorem expandSegment_bounds {first last : Json} {a b : ℕ} (hfirst : chunkIdAsU64 first = some a)
    (hlast : chunkIdAsU64 last = some b) :
    expandSegment (.array [first, last]) = List.range' a (b + 1 - a) := by
  have hnone : chunkIdAsU64 (.array [first, last]) = none := rfl
  simp only [expandSegment, hnone, hfirst, hlast]

theorem expandSegment_next (a : ℕ) :
    expandSegment (.array [chunkIdJson a, chunkIdJson (a + 1)]) = [a, a + 1] := by
  rw [expandSegment_pair, show a + 1 + 1 - a = 2 by omega]
  rfl

/-- What a range expands to and the shape of its elements. -/
def Expands (range : List Json) (ids : List ℕ) : Prop :=
  range.flatMap expandSegment = ids ∧ ∀ segment ∈ range, SegmentOk segment

theorem expands_two {last : Json} (hok : SegmentOk last) (id : ℕ) :
    Expands [last, chunkIdJson id] (expandSegment last ++ [id]) := by
  refine ⟨?_, ?_⟩
  · simp only [List.flatMap_cons, List.flatMap_nil, expandSegment_id, List.append_nil]
  · intro segment hsegment
    obtain rfl | hsegment := List.mem_cons.mp hsegment
    · exact hok
    · rw [List.mem_singleton.mp hsegment]
      trivial

theorem expands_next (a : ℕ) :
    Expands [.array [chunkIdJson a, chunkIdJson (a + 1)]] ([a] ++ [a + 1]) := by
  refine ⟨?_, ?_⟩
  · simp only [List.flatMap_cons, List.flatMap_nil, expandSegment_next, List.append_nil]
    rfl
  · intro segment hsegment
    rw [List.mem_singleton.mp hsegment]
    exact ⟨a, a + 1, rfl, rfl, Nat.le_succ a⟩

theorem extendLast_expands {last : Json} (hok : SegmentOk last)
    (hbound : IdBound (expandSegment last)) (id : ℕ) :
    Expands (extendLast last id) (expandSegment last ++ [id]) := by
  unfold extendLast
  cases hlast : chunkIdAsU64 last with
  | some lastId =>
    have hids : expandSegment last = [lastId] := by simp only [expandSegment, hlast]
    dsimp only
    split_ifs with hnext
    · rw [hids] at hbound ⊢
      rw [hnext, nextId_eq (hbound lastId (List.mem_singleton_self lastId))]
      exact expands_next lastId
    · exact expands_two hok id
  | none =>
    dsimp only
    split
    · next first second =>
      obtain ⟨a, b, hfirst, hsecond, hle⟩ := hok
      have hids := expandSegment_bounds hfirst hsecond
      rw [hsecond]
      dsimp only
      split_ifs with hnext
      · have hb : b < 2 ^ 64 - 1 := hbound b (by rw [hids, List.mem_range'_1]; omega)
        rw [hids, hnext, nextId_eq hb]
        refine ⟨?_, ?_⟩
        · have hextended := @expandSegment_bounds _ (chunkIdJson (b + 1)) _ _ hfirst rfl
          rw [List.flatMap_cons, List.flatMap_nil, List.append_nil, hextended,
            show b + 1 + 1 - a = (b + 1 - a) + 1 by omega, List.range'_1_concat,
            show a + (b + 1 - a) = b + 1 by omega]
        · intro segment hsegment
          rw [List.mem_singleton.mp hsegment]
          exact ⟨a, b + 1, hfirst, rfl, Nat.le_succ_of_le hle⟩
      · have hpair : SegmentOk (.array [first, second]) := ⟨a, b, hfirst, hsecond, hle⟩
        exact expands_two hpair id
    · next only =>
      cases honly : chunkIdAsU64 only with
      | none => exact expands_two hok id
      | some rangeEnd =>
        have hids : expandSegment (.array [only]) = [rangeEnd] := by
          rw [expandSegment, hlast]
          simp only [honly, Option.toList]
        dsimp only
        split_ifs with hnext
        · rw [hids] at hbound ⊢
          rw [hnext, nextId_eq (hbound rangeEnd (List.mem_singleton_self rangeEnd))]
          exact expands_next rangeEnd
        · exact expands_two hok id
    · exact expands_two hok id

theorem appendChunkIdRange_expands {range : List Json} {ids : List ℕ} (h : Expands range ids)
    (hbound : IdBound ids) (id : ℕ) : Expands (appendChunkIdRange range id) (ids ++ [id]) := by
  obtain ⟨hids, hok⟩ := h
  unfold appendChunkIdRange
  cases hlast : range.getLast? with
  | none =>
    rw [List.getLast?_eq_none_iff] at hlast
    subst hlast hids
    exact ⟨rfl, fun segment hsegment => by rw [List.mem_singleton.mp hsegment]; trivial⟩
  | some last =>
    obtain ⟨front, rfl⟩ := List.getLast?_eq_some_iff.mp hlast
    rw [List.flatMap_append, List.flatMap_cons, List.flatMap_nil, List.append_nil] at hids
    rw [List.dropLast_concat]
    have hlastOk := hok last (List.mem_append_right _ (List.mem_singleton_self last))
    obtain ⟨hextended, hextendedOk⟩ := extendLast_expands hlastOk
      (fun i hi => hbound i (hids ▸ List.mem_append_right _ hi)) id
    refine ⟨?_, ?_⟩
    · rw [List.flatMap_append, hextended, ← List.append_assoc, hids]
    · intro segment hsegment
      obtain hfront | hback := List.mem_append.mp hsegment
      · exact hok segment (List.mem_append_left _ hfront)
      · exact hextendedOk segment hback

theorem startChunkIdRange_expands {prev : ℕ} (hbound : prev < 2 ^ 64 - 1) (id : ℕ) :
    Expands (startChunkIdRange prev id) ([prev] ++ [id]) := by
  unfold startChunkIdRange
  split_ifs with hnext
  · rw [hnext, nextId_eq hbound]
    exact expands_next prev
  · have hid : SegmentOk (chunkIdJson prev) := trivial
    exact expands_two hid id

/-! ## Metadata -/

theorem chunkIdKey_ne : chunkIdKey ≠ chunkIdRangeKey := by decide

/-- Either no range, or a range instead of an id. -/
def MetaOk (m : Meta) : Prop :=
  m.lookup chunkIdRangeKey = none ∨
    ∃ range, m.lookup chunkIdRangeKey = some (.array range) ∧ m.lookup chunkIdKey = none ∧
      ∀ segment ∈ range, SegmentOk segment

theorem metaIds_of_range {m : Meta} {range : List Json}
    (hrange : m.lookup chunkIdRangeKey = some (.array range)) (hid : m.lookup chunkIdKey = none) :
    metaIds m = range.flatMap expandSegment := by
  rw [metaIds, hrange, hid]
  rfl

theorem metaIds_of_no_range {m : Meta} (hrange : m.lookup chunkIdRangeKey = none) :
    metaIds m = ((m.lookup chunkIdKey).bind chunkIdAsU64).toList := by
  rw [metaIds, hrange]
  exact List.append_nil _

theorem noteChunkId_ids {prev : Meta} (hprev : MetaOk prev) (hbound : IdBound (metaIds prev))
    {newValue : Json} {id : ℕ} (hid : chunkIdAsU64 newValue = some id) :
    MetaOk (noteChunkId prev newValue id) ∧
      metaIds (noteChunkId prev newValue id) = metaIds prev ++ [id] := by
  unfold noteChunkId
  obtain hrange | ⟨range, hrange, hnoId, hok⟩ := hprev
  · rw [hrange]
    dsimp only
    cases hprevId : (prev.lookup chunkIdKey).bind chunkIdAsU64 with
    | some prevId =>
      have hids : metaIds prev = [prevId] := by rw [metaIds_of_no_range hrange, hprevId]; rfl
      have hstart := startChunkIdRange_expands (hbound prevId (by simp [hids])) id
      have hlookupRange : ((prev.insert chunkIdRangeKey
          (.array (startChunkIdRange prevId id))).erase chunkIdKey).lookup chunkIdRangeKey =
            some (.array (startChunkIdRange prevId id)) := by
        rw [AList.lookup_erase_ne (chunkIdKey_ne).symm, AList.lookup_insert]
      have hlookupId : ((prev.insert chunkIdRangeKey
          (.array (startChunkIdRange prevId id))).erase chunkIdKey).lookup chunkIdKey = none :=
        AList.lookup_erase _ _
      refine ⟨.inr ⟨_, hlookupRange, hlookupId, hstart.2⟩, ?_⟩
      rw [metaIds_of_range hlookupRange hlookupId, hids, hstart.1]
    | none =>
      have hlookupRange : (prev.insert chunkIdKey newValue).lookup chunkIdRangeKey = none := by
        rw [AList.lookup_insert_ne (chunkIdKey_ne).symm, hrange]
      refine ⟨.inl hlookupRange, ?_⟩
      rw [metaIds_of_no_range hlookupRange, AList.lookup_insert, metaIds_of_no_range hrange,
        hprevId, Option.bind_some, hid]
      rfl
  · rw [hrange]
    have hids := metaIds_of_range hrange hnoId
    obtain ⟨happended, happendedOk⟩ := appendChunkIdRange_expands ⟨hids.symm, hok⟩ hbound id
    have hlookupRange : (prev.insert chunkIdRangeKey
        (.array (appendChunkIdRange range id))).lookup chunkIdRangeKey = _ :=
      AList.lookup_insert prev
    have hlookupId : (prev.insert chunkIdRangeKey
        (.array (appendChunkIdRange range id))).lookup chunkIdKey = none := by
      rw [AList.lookup_insert_ne chunkIdKey_ne, hnoId]
    refine ⟨.inr ⟨_, hlookupRange, hlookupId, happendedOk⟩, ?_⟩
    rw [metaIds_of_range hlookupRange hlookupId, happended]

def optionIds (m : Option Meta) : List ℕ := (m.map metaIds).getD []

theorem mergeMeta_keep {prev new : Meta}
    (h : (new.lookup chunkIdKey).bind chunkIdAsU64 = none) :
    mergeMeta (some prev) (some new) = some prev := by
  unfold mergeMeta
  cases hlookup : new.lookup chunkIdKey with
  | none => simp only [hlookup]
  | some newValue =>
    rw [hlookup, Option.bind_some] at h
    simp only [hlookup, h]

theorem mergeMeta_note {prev new : Meta} {newValue : Json} {id : ℕ}
    (hlookup : new.lookup chunkIdKey = some newValue) (hid : chunkIdAsU64 newValue = some id) :
    mergeMeta (some prev) (some new) = some (noteChunkId prev newValue id) := by
  simp only [mergeMeta, hlookup, hid]

theorem mergeMeta_ids {prev new : Option Meta} (hprev : ∀ m ∈ prev, MetaOk m)
    (hbound : IdBound (optionIds prev)) (hnew : ∀ m ∈ new, m.lookup chunkIdRangeKey = none) :
    (∀ m ∈ mergeMeta prev new, MetaOk m) ∧
      optionIds (mergeMeta prev new) = optionIds prev ++ optionIds new := by
  match prev, new with
  | none, new => exact ⟨fun m hm => .inl (hnew m hm), rfl⟩
  | some prev, none => exact ⟨hprev, (List.append_nil _).symm⟩
  | some prev, some new =>
    have hnewIds : optionIds (some new) = ((new.lookup chunkIdKey).bind chunkIdAsU64).toList :=
      metaIds_of_no_range (hnew new rfl)
    cases hnewId : (new.lookup chunkIdKey).bind chunkIdAsU64 with
    | none =>
      rw [mergeMeta_keep hnewId, hnewIds, hnewId]
      exact ⟨hprev, (List.append_nil _).symm⟩
    | some id =>
      obtain ⟨newValue, hlookup, hid⟩ := Option.bind_eq_some_iff.mp hnewId
      obtain ⟨hok, hids⟩ := noteChunkId_ids (hprev prev rfl) hbound hid
      rw [mergeMeta_note hlookup hid, hnewIds, hnewId]
      refine ⟨fun m hm => ?_, hids⟩
      rw [← Option.some.inj hm]
      exact hok

/-! ## Runs -/

def SessionNotification.chunkIds (n : SessionNotification α) : List ℕ := optionIds n.acpMeta?

/-- Numbered as the session numbers its chunks: one id at most, and no range. -/
def SessionNotification.Numbered (n : SessionNotification α) : Prop :=
  (∀ m ∈ n.acpMeta?, m.lookup chunkIdRangeKey = none) ∧ IdBound n.chunkIds

theorem carries_ids {input : List (SessionNotification α)} (h : ∀ n ∈ input, n.Numbered) :
    Carries input fun run sent => (∀ m ∈ sent.acpMeta?, MetaOk m) ∧
      sent.chunkIds = run.flatMap SessionNotification.chunkIds ∧ IdBound sent.chunkIds where
  single := by
    intro n hn
    refine ⟨fun m hm => .inl ((h n hn).1 m hm), ?_, (h n hn).2⟩
    rw [List.flatMap_cons, List.flatMap_nil, List.append_nil]
  join := by
    rintro run prev new joined hnew ⟨hok, hids, hbound⟩ hjoins
    obtain ⟨hmerged, hmergedIds⟩ := mergeMeta_ids hok hbound (h new hnew).1
    have hjoined : joined.chunkIds = prev.chunkIds ++ new.chunkIds := by
      rw [SessionNotification.chunkIds, hjoins.acpMetas]
      exact hmergedIds
    refine ⟨hjoins.acpMetas ▸ hmerged, ?_, ?_⟩
    · rw [hjoined, hids, List.flatMap_append, List.flatMap_cons, List.flatMap_nil, List.append_nil]
    · rw [hjoined]
      exact List.forall_mem_append.mpr ⟨hbound, (h new hnew).2⟩

theorem flatMap_of_forall₂ {runs : List (List (SessionNotification α))}
    {sent : List (SessionNotification α)}
    (h : List.Forall₂ (fun run out => out.chunkIds = run.flatMap SessionNotification.chunkIds)
      runs sent) :
    sent.flatMap SessionNotification.chunkIds =
      runs.flatten.flatMap SessionNotification.chunkIds := by
  induction h with
  | nil => rfl
  | cons hrun _ ih => rw [List.flatMap_cons, hrun, ih, List.flatten_cons, List.flatMap_append]

/-- Whatever comes in and whatever the settings are, what is sent stands for the runs of the input
in order, and the chunk ids are those that came in. -/
theorem sendAll_keeps (settings : Option BufferingSettings)
    (input : List (SessionNotification α)) :
    (∃ runs : List (List (SessionNotification α)), runs.flatten = input ∧
      List.Forall₂ MergedRun runs ((ReplayBuffer.new settings).sendAll input)) ∧
    ((∀ n ∈ input, n.Numbered) →
      ((ReplayBuffer.new settings).sendAll input).flatMap SessionNotification.chunkIds =
        input.flatMap SessionNotification.chunkIds) := by
  have hsound : (ReplayBuffer.new settings : ReplayBuffer α).Sound := fun _ => rfl
  constructor
  · obtain ⟨runs, hruns, hforall⟩ := ReplayBuffer.sendAll_runs (carries_merged input) hsound
      (.inl ⟨rfl, rfl⟩)
    exact ⟨runs, hruns, hforall.imp fun _ _ h => h.1⟩
  · intro hnumbered
    obtain ⟨runs, hruns, hforall⟩ := ReplayBuffer.sendAll_runs (carries_ids hnumbered) hsound
      (.inl ⟨rfl, rfl⟩)
    rw [flatMap_of_forall₂ (hforall.imp fun _ _ h => h.2.1), hruns]
    rfl

def numberedChunk (text : Str) (id : ℕ) : SessionNotification Unit :=
  .acp
    { sessionId := ['s']
      update := .agentMessageChunk
        { content := .text { text := text, annotations := none, textMeta := none }
          chunkMeta := none }
      acpMeta := some (AList.singleton chunkIdKey (chunkIdJson id)) }

theorem numberedChunk_numbered (text : Str) {id : ℕ} (h : id < 2 ^ 64 - 1) :
    (numberedChunk text id).Numbered := by
  refine ⟨?_, ?_⟩
  · rintro m ⟨⟩
    rfl
  · intro i hi
    rw [List.mem_singleton.mp hi]
    exact h

theorem sendAll_keeps_three :
    ((ReplayBuffer.new (some ⟨100, 2048, 10⟩)).sendAll
      [numberedChunk ['a'] 1, numberedChunk ['b'] 2, numberedChunk ['c'] 5]).flatMap
        SessionNotification.chunkIds = [1, 2, 5] := by
  have hnumbered : ∀ n ∈ [numberedChunk ['a'] 1, numberedChunk ['b'] 2, numberedChunk ['c'] 5],
      n.Numbered := by
    simp only [List.forall_mem_cons]
    exact ⟨numberedChunk_numbered _ (by decide), numberedChunk_numbered _ (by decide),
      numberedChunk_numbered _ (by decide), nofun⟩
  rw [(sendAll_keeps (some ⟨100, 2048, 10⟩) _).2 hnumbered]
  rfl

end GrokBuild.ChunkMerge
