import GrokBuild.Compaction.UserQueries

/-!
# Rounds of compaction

What a compaction puts in front of its summary are the blocks of the compactions before it and one
with the queries it takes. So the queries stay in order, each once, over any number of rounds.
-/

namespace GrokBuild.Compaction
open Text CompactionItem CompactionItemBuilder

/-- A turn arrives, or a prefix is compacted. -/
inductive RoundEvent (T : Type) where
  | turn (item : T)
  | compaction (splitIdx : ℕ) (summaryText : Str)

variable {T : Type}

/-- The turns that arrived. -/
def RoundEvent.arrived : RoundEvent T → Option T
  | .turn item => some item
  | .compaction .. => none

section
variable [CompactionItemBuilder T]

/-- The text of the item that replaces a prefix of the conversation. -/
def finalSummaryText (turnsToCompact : List T) (userMessageTruncateChars : ℕ)
    (summaryText : Str) : Str :=
  let separated := separatePriorUserQueries turnsToCompact
  let current := extractUserQueriesFromTurns turnsToCompact userMessageTruncateChars
  let preamble := assembleUserQueriesPreamble separated.priorUserQueries current
  if preamble = [] then summaryText else preamble ++ summaryText

def compactHistory (threshold : ℕ) (sourceTurns : List T) (splitIdx : ℕ) (summaryText : Str) :
    List T :=
  compactionSummaryItem (finalSummaryText (sourceTurns.take splitIdx) threshold summaryText) ::
    sourceTurns.drop splitIdx

def RoundEvent.apply (threshold : ℕ) (turns : List T) : RoundEvent T → List T
  | .turn item => turns ++ [item]
  | .compaction splitIdx summaryText => compactHistory threshold turns splitIdx summaryText

def runRounds (threshold : ℕ) (events : List (RoundEvent T)) : List T :=
  events.foldl (RoundEvent.apply threshold) []

/-- What the host's items promise about a summary. -/
class LawfulBuilder (T : Type) [CompactionItemBuilder T] : Prop where
  isCompactionSummary_summaryItem (s : Str) :
    isCompactionSummary (compactionSummaryItem s : T) = true
  text_summaryItem (s : Str) : (text (compactionSummaryItem s : T)).getD [] = s
  role_summaryItem (s : Str) : role (compactionSummaryItem s : T) ≠ .user

instance : LawfulBuilder MockItem where
  isCompactionSummary_summaryItem _ := rfl
  text_summaryItem _ := rfl
  role_summaryItem _ := nofun

/-- A query that cannot close its block. -/
def Untagged (bodies : List Str) : Prop := ∀ body ∈ bodies, ¬ endTag <:+: body

/-- Turns are no summaries and cannot close a block, a compaction takes something and its summary
holds no block. -/
def RoundEvent.Plain (threshold : ℕ) : RoundEvent T → Prop
  | .turn item => isCompactionSummary item = false ∧ Untagged (queryOf threshold item).toList
  | .compaction splitIdx summaryText => 0 < splitIdx ∧ NoBlock summaryText

end

/-! ## Assembling -/

theorem untagged_of_not_mem {bodies : List Str} (h : ∀ body ∈ bodies, '<' ∉ body) :
    Untagged bodies := by
  intro body hbody hin
  have hmem : '<' ∈ endTag := by decide
  exact h body hbody (hin.subset hmem)

theorem noBlock_of_not_mem {summary : Str} (h : '<' ∉ summary) : NoBlock summary := by
  intro before inner hsplit
  have hmem : '<' ∈ startTag := by decide
  refine absurd ?_ h
  rw [hsplit]
  exact List.mem_append_right _ (List.mem_append_left _ hmem)

/-- The block of the queries, if there are any. -/
def blockOf (bodies : List Str) : Option Str :=
  if bodies = [] then none else some (encodeBlock bodies)

/-- The blocks that are carried on, one for each round that had queries. -/
def carriedBlocks (rounds : List (List Str)) : Option Str :=
  if rounds = [] then none else some (joinLines (rounds.map encodeBlock))

/-- The rounds with one more, if that has queries. -/
def addRound (rounds : List (List Str)) (bodies : List Str) : List (List Str) :=
  if bodies = [] then rounds else rounds ++ [bodies]

theorem flatten_addRound (rounds : List (List Str)) (bodies : List Str) :
    (addRound rounds bodies).flatten = rounds.flatten ++ bodies := by
  unfold addRound
  split_ifs with hnil
  · rw [hnil, List.append_nil]
  · rw [List.flatten_append, List.flatten_singleton]

theorem blank_newlines (n : ℕ) : Blank (List.replicate n '\n') := by
  intro c hc
  rw [List.eq_of_mem_replicate hc]
  decide

/-- A text of the blocks of the rounds, each with blank space behind it. -/
def LaysOut (preamble : Str) (rounds : List (List Str)) : Prop :=
  ∃ pairs : List (Str × Str), preamble = layOut pairs ∧
    pairs.map Prod.fst = rounds.map encodeBlock ∧ ∀ p ∈ pairs, Blank p.2

theorem layOut_append (pairs more : List (Str × Str)) :
    layOut (pairs ++ more) = layOut pairs ++ layOut more := List.flatMap_append

theorem LaysOut.append {front back : Str} {rounds more : List (List Str)}
    (hfront : LaysOut front rounds) (hback : LaysOut back more) :
    LaysOut (front ++ back) (rounds ++ more) := by
  obtain ⟨pairs, rfl, hpairs, hblank⟩ := hfront
  obtain ⟨pairs', rfl, hpairs', hblank'⟩ := hback
  refine ⟨pairs ++ pairs', (layOut_append _ _).symm, ?_, fun p hp => ?_⟩
  · rw [List.map_append, List.map_append, hpairs, hpairs']
  · exact (List.mem_append.mp hp).elim (hblank p) (hblank' p)

theorem laysOut_block (bodies : List Str) {gap : Str} (hgap : Blank gap) :
    LaysOut (encodeBlock bodies ++ gap) [bodies] := by
  refine ⟨[(encodeBlock bodies, gap)], ?_, rfl, fun p hp => ?_⟩
  · rw [layOut_cons]
    exact congrArg _ (List.append_nil gap).symm
  · rw [List.mem_singleton.mp hp]
    exact hgap

theorem laysOut_joinLines {rounds : List (List Str)} (hrounds : rounds ≠ []) {gap : Str}
    (hgap : Blank gap) : LaysOut (joinLines (rounds.map encodeBlock) ++ gap) rounds := by
  induction rounds with
  | nil => exact absurd rfl hrounds
  | cons bodies rounds ih =>
    cases rounds with
    | nil =>
      have hjoin : joinLines ([bodies].map encodeBlock) = encodeBlock bodies :=
        List.append_nil _
      rw [hjoin]
      exact laysOut_block bodies hgap
    | cons next rounds =>
      have hnewline : Blank ['\n'] := blank_newlines 1
      have hjoin : joinLines ((bodies :: next :: rounds).map encodeBlock) ++ gap =
          (encodeBlock bodies ++ ['\n']) ++
            (joinLines ((next :: rounds).map encodeBlock) ++ gap) := by
        have hnext : (next :: rounds).map encodeBlock ≠ [] := List.cons_ne_nil _ _
        rw [List.map_cons, joinLines_cons _ hnext, List.append_assoc, List.append_assoc]
        rfl
      rw [hjoin]
      exact (laysOut_block bodies hnewline).append (ih (List.cons_ne_nil _ _))

theorem laysOut_assemble (rounds : List (List Str)) (bodies : List Str) :
    LaysOut (assembleUserQueriesPreamble (carriedBlocks rounds) (blockOf bodies))
      (addRound rounds bodies) := by
  have hgap : Blank ['\n', '\n'] := blank_newlines 2
  have hprior : LaysOut (assembleUserQueriesPreamble (carriedBlocks rounds) none) rounds := by
    unfold carriedBlocks
    split_ifs with hnil
    · rw [hnil]
      exact ⟨[], rfl, rfl, nofun⟩
    · exact laysOut_joinLines hnil hgap
  unfold blockOf addRound
  split_ifs with hnil
  · exact hprior
  · exact hprior.append (laysOut_block bodies hgap)

/-- What is split are the blocks that were assembled, and the summary without the blank space
around it. -/
theorem split_of_laysOut {preamble summary : Str} {rounds : List (List Str)}
    (h : LaysOut preamble rounds) (hrounds : ∀ bodies ∈ rounds, Untagged bodies)
    (hsummary : NoBlock summary) :
    splitPriorCompactionText (preamble ++ summary) =
      (carriedBlocks rounds, if rounds = [] then summary else trim summary) := by
  obtain ⟨pairs, rfl, hpairs, hblank⟩ := h
  have hblocks : ∀ p ∈ pairs, IsBlock p.1 := by
    intro p hp
    have hmem : p.1 ∈ rounds.map encodeBlock := hpairs ▸ List.mem_map_of_mem hp
    obtain ⟨bodies, hbodies, heq⟩ := List.mem_map.mp hmem
    rw [← heq]
    exact isBlock_encodeBlock (hrounds bodies hbodies)
  have hnil : pairs = [] ↔ rounds = [] := by
    rw [← List.map_eq_nil_iff, hpairs, List.map_eq_nil_iff]
  rw [split_layOut hblocks hblank hsummary, hpairs]
  unfold carriedBlocks
  split_ifs with h₁ h₂ h₂
  · rfl
  · exact absurd (hnil.mp h₁) h₂
  · exact absurd (hnil.mpr h₂) h₁
  · rfl

theorem untagged_addRound {rounds : List (List Str)} {bodies : List Str}
    (hrounds : ∀ round ∈ rounds, Untagged round) (hbodies : Untagged bodies) :
    ∀ round ∈ addRound rounds bodies, Untagged round := by
  unfold addRound
  split_ifs
  · exact hrounds
  · intro round hround
    obtain hold | hnew := List.mem_append.mp hround
    · exact hrounds round hold
    · rw [List.mem_singleton.mp hnew]
      exact hbodies

/-! ## Separating -/

variable [CompactionItemBuilder T]

/-- Turns that are no summaries go on to the summarizer. -/
theorem foldl_separateTurn {turns : List T} (h : ∀ t ∈ turns, isCompactionSummary t = false)
    (separated : SeparatedHistoryTurns T) :
    turns.foldl separateTurn separated =
      { separated with turnsForLlm := separated.turnsForLlm ++ turns } := by
  induction turns generalizing separated with
  | nil =>
    rw [List.foldl_nil, List.append_nil]
  | cons turn turns ih =>
    have hturn : separateTurn separated turn =
        { separated with turnsForLlm := separated.turnsForLlm ++ [turn] } := by
      unfold separateTurn
      rw [h turn List.mem_cons_self]
      rfl
    rw [List.foldl_cons, hturn, ih fun t ht => h t (List.mem_cons_of_mem _ ht)]
    dsimp only
    rw [List.append_assoc, List.singleton_append]

/-- A summary in front of such turns gives up its blocks. -/
theorem separate_summary {item : T} {turns : List T} (hitem : isCompactionSummary item = true)
    (h : ∀ t ∈ turns, isCompactionSummary t = false) {sections : Option Str} {rest : Str}
    (hsplit : splitPriorCompactionText ((text item).getD []) = (sections, rest)) :
    separatePriorUserQueries (item :: turns) =
      ⟨(if rest = [] then [] else [compactionSummaryItem rest]) ++ turns, sections, true⟩ := by
  have hjoin : joinSections none sections = sections := by
    cases sections <;> rfl
  have hturn : separateTurn ⟨[], none, false⟩ item =
      ⟨if rest = [] then [] else [compactionSummaryItem rest], sections, true⟩ := by
    unfold separateTurn
    rw [if_pos hitem, hsplit]
    dsimp only
    rw [hjoin, List.nil_append]
  unfold separatePriorUserQueries
  rw [List.foldl_cons, hturn, foldl_separateTurn h]

theorem extract_eq_blockOf (turns : List T) (threshold : ℕ) :
    extractUserQueriesFromTurns turns threshold =
      blockOf (turns.filterMap (queryOf threshold)) := rfl

theorem finalSummaryText_eq (turns : List T) (threshold : ℕ) (summaryText : Str) :
    finalSummaryText turns threshold summaryText =
      assembleUserQueriesPreamble (separatePriorUserQueries turns).priorUserQueries
        (blockOf (turns.filterMap (queryOf threshold))) ++ summaryText := by
  unfold finalSummaryText
  rw [extract_eq_blockOf]
  dsimp only
  split_ifs with hnil
  · rw [hnil, List.nil_append]
  · rfl

/-! ## Runs -/

variable {threshold : ℕ} {turns arrived rest compacted : List T} {item : T}
  {rounds : List (List Str)}

/-- A summary behind the blocks of the rounds before it. -/
structure StandsFor (item : T) (rounds : List (List Str)) : Prop where
  isSummary : isCompactionSummary item = true
  role : role item ≠ .user
  laidOut : ∃ preamble summary, (text item).getD [] = preamble ++ summary ∧
    LaysOut preamble rounds ∧ NoBlock summary

/-- Before the first compaction all turns are there, and after it a summary stands for a prefix. -/
def Keeps (threshold : ℕ) (turns arrived : List T) : Prop :=
  turns = arrived ∨ ∃ item compacted rest rounds, turns = item :: rest ∧
    arrived = compacted ++ rest ∧ StandsFor item rounds ∧ (∀ round ∈ rounds, Untagged round) ∧
    rounds.flatten = compacted.filterMap (queryOf threshold)

/-- A turn that a block can take. -/
def PlainTurn (threshold : ℕ) (item : T) : Prop :=
  isCompactionSummary item = false ∧ Untagged (queryOf threshold item).toList

theorem untagged_filterMap (h : ∀ t ∈ turns, PlainTurn threshold t) :
    Untagged (turns.filterMap (queryOf threshold)) := by
  intro body hbody
  obtain ⟨t, ht, hquery⟩ := List.mem_filterMap.mp hbody
  exact (h t ht).2 body (Option.mem_toList.mpr hquery)

/-- What a compaction puts in front of its summary are the rounds so far, with the queries that it
takes. -/
theorem Keeps.finalSummaryText (h : Keeps threshold turns arrived)
    (hplain : ∀ t ∈ arrived, PlainTurn threshold t) {splitIdx : ℕ} (hsplit : 0 < splitIdx)
    (summaryText : Str) :
    ∃ preamble rounds compacted, finalSummaryText (turns.take splitIdx) threshold summaryText =
        preamble ++ summaryText ∧ LaysOut preamble rounds ∧
      arrived = compacted ++ turns.drop splitIdx ∧ (∀ round ∈ rounds, Untagged round) ∧
      rounds.flatten = compacted.filterMap (queryOf threshold) := by
  rw [finalSummaryText_eq]
  obtain rfl | ⟨item, compacted, rest, rounds, rfl, rfl, hitem, hrounds, hflat⟩ := h
  · have htaken : ∀ t ∈ turns.take splitIdx, PlainTurn threshold t := fun t ht =>
      hplain t (List.mem_of_mem_take ht)
    have hprior : (separatePriorUserQueries (turns.take splitIdx)).priorUserQueries =
        carriedBlocks [] := by
      unfold separatePriorUserQueries
      rw [foldl_separateTurn fun t ht => (htaken t ht).1]
      rfl
    rw [hprior]
    refine ⟨_, _, turns.take splitIdx, rfl, laysOut_assemble [] _,
      (List.take_append_drop _ _).symm, ?_, ?_⟩
    · exact untagged_addRound nofun (untagged_filterMap htaken)
    · rw [flatten_addRound, List.flatten_nil, List.nil_append]
  · obtain ⟨k, rfl⟩ : ∃ k, splitIdx = k + 1 := ⟨splitIdx - 1, by omega⟩
    have htaken : ∀ t ∈ rest.take k, PlainTurn threshold t := fun t ht =>
      hplain t (List.mem_append_right _ (List.mem_of_mem_take ht))
    have hprior : (separatePriorUserQueries (item :: rest.take k)).priorUserQueries =
        carriedBlocks rounds := by
      obtain ⟨preamble, summary, htext, hlaid, hsummary⟩ := hitem.laidOut
      rw [separate_summary hitem.isSummary (fun t ht => (htaken t ht).1)
        (by rw [htext, split_of_laysOut hlaid hrounds hsummary])]
    have hquery : queryOf threshold item = none := by
      unfold queryOf
      rw [if_pos hitem.role]
    rw [List.take_succ_cons, hprior, List.filterMap_cons_none hquery]
    refine ⟨_, _, compacted ++ rest.take k, rfl, laysOut_assemble rounds _, ?_, ?_, ?_⟩
    · rw [List.drop_succ_cons, List.append_assoc, List.take_append_drop]
    · exact untagged_addRound hrounds (untagged_filterMap htaken)
    · rw [flatten_addRound, hflat, List.filterMap_append]

theorem plain_arrived {events : List (RoundEvent T)} (h : ∀ e ∈ events, e.Plain threshold) :
    ∀ t ∈ events.filterMap RoundEvent.arrived, PlainTurn threshold t := by
  intro t ht
  obtain ⟨event, hevent, harrived⟩ := List.mem_filterMap.mp ht
  cases event with
  | turn item =>
    obtain rfl := Option.some.inj harrived
    exact h _ hevent
  | compaction => cases harrived

variable [LawfulBuilder T]

theorem Keeps.apply (h : Keeps threshold turns arrived)
    (hplain : ∀ t ∈ arrived, PlainTurn threshold t) {event : RoundEvent T}
    (hevent : event.Plain threshold) :
    Keeps threshold (event.apply threshold turns) (arrived ++ event.arrived.toList) := by
  cases event with
  | turn next =>
    obtain rfl | ⟨item, compacted, rest, rounds, rfl, rfl, hitem, hrounds, hflat⟩ := h
    · exact .inl rfl
    · refine .inr ⟨item, compacted, rest ++ [next], rounds, rfl, ?_, hitem, hrounds, hflat⟩
      exact List.append_assoc ..
  | compaction splitIdx summaryText =>
    obtain ⟨hsplit, hsummary⟩ := hevent
    obtain ⟨preamble, rounds, compacted, htext, hlaid, harrived, hrounds, hflat⟩ :=
      h.finalSummaryText hplain hsplit summaryText
    refine .inr ⟨_, compacted, _, rounds, rfl, ?_, ?_, hrounds, hflat⟩
    · exact (List.append_nil arrived).trans harrived
    · refine ⟨LawfulBuilder.isCompactionSummary_summaryItem _, LawfulBuilder.role_summaryItem _,
        preamble, summaryText, ?_, hlaid, hsummary⟩
      rw [LawfulBuilder.text_summaryItem, htext]

theorem keeps_runRounds {events : List (RoundEvent T)} (h : ∀ e ∈ events, e.Plain threshold) :
    Keeps threshold (runRounds threshold events) (events.filterMap RoundEvent.arrived) := by
  induction events using List.reverseRecOn with
  | nil => exact .inl rfl
  | append_singleton events event ih =>
    have hbefore : ∀ e ∈ events, e.Plain threshold := fun e he => h e (List.mem_append_left _ he)
    have hevent := h event (List.mem_append_right _ List.mem_cons_self)
    have hlast : [event].filterMap RoundEvent.arrived = event.arrived.toList := by
      cases event <;> rfl
    unfold runRounds at ih ⊢
    rw [List.foldl_concat, List.filterMap_append, hlast]
    exact (ih hbefore).apply (plain_arrived hbefore) hevent

/-- After any number of rounds the blocks in front of the summary hold every query of the turns
that are compacted, in order and once, and come apart from the summary again. A query is the text of
its turn where that is short and has no attachments. -/
theorem user_queries_survive (threshold : ℕ) :
    (∀ (rounds : List (List Str)) (bodies : List Str) (summary : Str),
      (∀ round ∈ rounds, Untagged round) → Untagged bodies → NoBlock summary →
      let built := assembleUserQueriesPreamble (carriedBlocks rounds) (blockOf bodies) ++ summary
      let rest := if addRound rounds bodies = [] then summary else trim summary
      splitPriorCompactionText built = (carriedBlocks (addRound rounds bodies), rest) ∧
        separatePriorUserQueries [(compactionSummaryItem built : T)] =
          ⟨if rest = [] then [] else [compactionSummaryItem rest],
            carriedBlocks (addRound rounds bodies), true⟩) ∧
    (∀ events : List (RoundEvent T), (∀ e ∈ events, e.Plain threshold) →
      ∀ (splitIdx : ℕ) (summaryText : Str), 0 < splitIdx → NoBlock summaryText →
      ∃ preamble rounds compacted,
        finalSummaryText ((runRounds threshold events).take splitIdx) threshold summaryText =
          preamble ++ summaryText ∧
        LaysOut preamble rounds ∧
        splitPriorCompactionText (preamble ++ summaryText) =
          (carriedBlocks rounds, if rounds = [] then summaryText else trim summaryText) ∧
        events.filterMap RoundEvent.arrived =
          compacted ++ (runRounds threshold events).drop splitIdx ∧
        rounds.flatten = compacted.filterMap (queryOf threshold)) ∧
    (∀ item : T, role item = .user → attachmentRefs item = [] → ∀ query, text item = some query →
      query ≠ [] → query.length ≤ threshold → queryOf threshold item = some query) := by
  refine ⟨fun rounds bodies summary hrounds hbodies hsummary => ?_,
    fun events hevents splitIdx summaryText hsplit hsummary => ?_,
    fun item hrole hattachments query htext hquery hlen => ?_⟩
  · have hsplit := split_of_laysOut (laysOut_assemble rounds bodies)
      (untagged_addRound hrounds hbodies) hsummary
    refine ⟨hsplit, ?_⟩
    rw [separate_summary (LawfulBuilder.isCompactionSummary_summaryItem _) nofun
      (by rw [LawfulBuilder.text_summaryItem, hsplit]), List.append_nil]
  · obtain ⟨preamble, rounds, compacted, htext, hlaid, harrived, hrounds, hflat⟩ :=
      (keeps_runRounds hevents).finalSummaryText (plain_arrived hevents) hsplit summaryText
    exact ⟨preamble, rounds, compacted, htext, hlaid, split_of_laysOut hlaid hrounds hsummary,
      harrived, hflat⟩
  · unfold queryOf
    rw [if_neg (not_not_intro hrole), htext, hattachments]
    dsimp only [Option.getD_some]
    rw [if_neg fun h => hquery h.1, queryBody, truncateMiddle, if_pos hlen, if_pos rfl]
    exact congrArg some (List.append_nil query)

def userItem (content : Str) : MockItem := ⟨.user, content, false⟩

theorem user_queries_survive_two :
    ∃ preamble rounds compacted,
      finalSummaryText ((runRounds 3000 [.turn (userItem ['a']), .compaction 1 ['s'],
        .turn (userItem ['b'])]).take 2) 3000 ['t'] = preamble ++ ['t'] ∧
      LaysOut preamble rounds ∧
      splitPriorCompactionText (preamble ++ ['t']) =
        (carriedBlocks rounds, if rounds = [] then ['t'] else trim ['t']) ∧
      [userItem ['a'], userItem ['b']] = compacted ++ [] ∧
      rounds.flatten = compacted.filterMap (queryOf 3000) := by
  have hplain : ∀ c : Char, c ≠ '<' → RoundEvent.Plain 3000 (.turn (userItem [c])) := by
    intro c hc
    refine ⟨rfl, untagged_of_not_mem fun body hbody => ?_⟩
    rw [show (queryOf 3000 (userItem [c])).toList = [[c]] from rfl] at hbody
    rw [List.mem_singleton.mp hbody]
    exact fun hmem => hc (List.mem_singleton.mp hmem).symm
  refine (user_queries_survive (T := MockItem) 3000).2.1 _ (fun event hevent => ?_) 2 ['t']
    (by decide) (noBlock_of_not_mem (by decide))
  obtain rfl | rfl | rfl : event = .turn (userItem ['a']) ∨ event = .compaction 1 ['s'] ∨
      event = .turn (userItem ['b']) := by simpa using hevent
  · exact hplain 'a' (by decide)
  · exact ⟨by decide, noBlock_of_not_mem (by decide)⟩
  · exact hplain 'b' (by decide)

/-- A summary loses the blank space around it. -/
theorem summary_not_exact :
    ¬ ∀ (texts : List Str) (summary : Str),
      let queries := extractUserQueriesFromTurns (texts.map userItem) 3000
      splitPriorCompactionText (assembleUserQueriesPreamble none queries ++ summary) =
        (queries, summary) := by
  intro h
  have hsplit := h [['q']] ['s', '\n']
  exact absurd hsplit (by decide +kernel)

end GrokBuild.Compaction
