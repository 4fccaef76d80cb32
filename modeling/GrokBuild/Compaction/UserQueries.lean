import GrokBuild.Compaction.Item
import GrokBuild.Text.Tags
import GrokBuild.Text.Terminators

/-!
# User queries around a summary

A compaction summary is preceded by blocks with the user queries that it replaces. The next
compaction finds the blocks by their tags and carries them on. What is split are the same blocks and
the summary, if no query holds the closing tag and the summary holds no block.
-/

namespace GrokBuild.Compaction
open Text CompactionItem CompactionItemBuilder

/-! ## Splitting -/

def startTag : Str := "<grok_user_queries>".toList

def endTag : Str := "</grok_user_queries>".toList

/-- What is not in a block, each piece on a line of its own. -/
def pushRest (rest piece : Str) : Str :=
  if trim piece = [] then rest
  else if rest = [] then trim piece
  else rest ++ '\n' :: trim piece

/-- What is before the next block of a text, the block, and what is behind it. -/
def nextBlock (text : Str) : Option (Str × Str × Str) :=
  (splitOnce startTag text).bind fun (before, inner) =>
    (splitOnce endTag (startTag ++ inner)).map fun (block, after) =>
      (before, block ++ endTag, after)

/-- The loop over the text behind the cursor. A block takes characters, so there are fewer blocks
than the text has characters. -/
def splitLoop : ℕ → Str → List Str → Str → List Str × Str
  | 0, _, userSections, rest => (userSections, rest)
  | fuel + 1, text, userSections, rest =>
    match nextBlock text with
    -- no opening tag, or one that is not closed
    | none => (userSections, pushRest rest text)
    | some (before, block, after) =>
      splitLoop fuel after (userSections ++ [block]) (pushRest rest before)

def splitPriorCompactionText (text : Str) : Option Str × Str :=
  let (userSections, rest) := splitLoop (text.length + 1) text [] []
  if userSections = [] then (none, text) else (some (joinLines userSections), rest)

/-! ## Extracting -/

def truncateMiddle (msg : Str) (maxChars : ℕ) : Option Str :=
  if msg.length ≤ maxChars then none
  else
    let frontLen := maxChars / 2
    let backLen := maxChars - frontLen
    some (msg.take frontLen ++ "...[truncated]...".toList ++ msg.drop (msg.length - backLen))

def fileLine (ref : CompactionFileRef) : Str :=
  "<grok_file id=\"".toList ++ ref.id ++ "\" name=\"".toList ++ ref.name ++ "\" />\n".toList

/-- What stands between the tags of a query. -/
def queryBody (text : Str) (attachments : List CompactionFileRef) (threshold : ℕ) : Str :=
  (truncateMiddle text threshold).getD text ++
    if attachments = [] then [] else '\n' :: attachments.flatMap fileLine

def queryOpen : Str := "<grok_query>".toList

def queryClose : Str := "</grok_query>\n".toList

def wrapQuery (body : Str) : Str := queryOpen ++ (body ++ queryClose)

variable {T : Type}

/-- The query of an item, if it is a user item with text or attachments. -/
def queryOf [CompactionItem T] (threshold : ℕ) (turn : T) : Option Str :=
  if role turn ≠ .user then none
  else
    let text := (text turn).getD []
    let attachments := attachmentRefs turn
    if text = [] ∧ attachments = [] then none else some (queryBody text attachments threshold)

def encodeBlock (bodies : List Str) : Str :=
  startTag ++ '\n' :: (bodies.flatMap wrapQuery ++ endTag)

def extractUserQueriesFromTurns [CompactionItem T] (turns : List T) (userTruncateChars : ℕ) :
    Option Str :=
  let bodies := turns.filterMap (queryOf userTruncateChars)
  if bodies = [] then none else some (encodeBlock bodies)

/-! ## Separating and assembling -/

structure SeparatedHistoryTurns (T : Type) where
  turnsForLlm : List T
  priorUserQueries : Option Str
  hasPriorCompaction : Bool

def joinSections (prior : Option Str) (section' : Option Str) : Option Str :=
  match section' with
  | none => prior
  | some userSec =>
    match prior with
    | some existing => some (existing ++ '\n' :: userSec)
    | none => some userSec

def separateTurn [CompactionItemBuilder T] (separated : SeparatedHistoryTurns T) (turn : T) :
    SeparatedHistoryTurns T :=
  if isCompactionSummary turn then
    let (userSection, rest) := splitPriorCompactionText ((text turn).getD [])
    { turnsForLlm :=
        if rest = [] then separated.turnsForLlm
        else separated.turnsForLlm ++ [compactionSummaryItem rest]
      priorUserQueries := joinSections separated.priorUserQueries userSection
      hasPriorCompaction := true }
  else { separated with turnsForLlm := separated.turnsForLlm ++ [turn] }

def separatePriorUserQueries [CompactionItemBuilder T] (turns : List T) :
    SeparatedHistoryTurns T :=
  turns.foldl separateTurn ⟨[], none, false⟩

def assembleUserQueriesPreamble (prior current : Option Str) : Str :=
  let preamble := match prior with
    | some p => p ++ ['\n', '\n']
    | none => []
  match current with
  | some c => preamble ++ (c ++ ['\n', '\n'])
  | none => preamble

/-! ## The tags -/

variable {sep tag rest back : Str}

theorem headOnce_startTag : HeadOnce startTag := by decide

theorem headOnce_endTag : HeadOnce endTag := by decide

/-- A tag does not start in a text without its head. -/
theorem infix_of_head_not_mem {c : Char} {front : Str} (hhead : sep.head? = some c)
    (hnot : c ∉ front) (hin : sep <:+: front ++ back) : sep <:+: back := by
  induction front with
  | nil => exact hin
  | cons d front ih =>
    rw [List.cons_append] at hin
    obtain hprefix | hrest := List.infix_cons_iff.mp hin
    · obtain ⟨rest, hrest⟩ := hprefix
      cases sep with
      | nil => cases hhead
      | cons e sep =>
        obtain ⟨rfl, -⟩ := List.cons.inj hrest
        obtain rfl := Option.some.inj hhead
        exact absurd List.mem_cons_self hnot
    · exact ih (fun hmem => hnot (List.mem_cons_of_mem _ hmem)) hrest

/-- Behind another tag, with the same head and then different, the tag is in what follows. -/
theorem infix_of_other_tag (hother : HeadOnce tag) (hhead : sep.head? = tag.head?)
    (hsep : ¬ sep <+: tag) (htag : ¬ tag <+: sep) (hin : sep <:+: tag ++ back) : sep <:+: back := by
  obtain ⟨c, w, rfl, honce⟩ := hother
  rw [List.cons_append] at hin
  obtain hprefix | hrest := List.infix_cons_iff.mp hin
  · rw [← List.cons_append] at hprefix
    obtain hle | hle := List.prefix_or_prefix_of_prefix hprefix (List.prefix_append _ _)
    · exact absurd hle hsep
    · exact absurd hle htag
  · exact infix_of_head_not_mem hhead honce hrest

theorem endTag_of_startTag (h : endTag <:+: startTag ++ back) : endTag <:+: back :=
  infix_of_other_tag headOnce_startTag (by decide) (by decide) (by decide) h

/-! ## Blocks -/

/-- A block ends at its first closing tag. -/
def IsBlock (block : Str) : Prop :=
  ∃ inner, block = startTag ++ (inner ++ endTag) ∧ ¬ endTag <:+: startTag ++ inner

/-- No opening tag has a closing one behind it. -/
def NoBlock (summary : Str) : Prop :=
  ∀ before inner, summary = before ++ (startTag ++ inner) → ¬ endTag <:+: inner

theorem endTag_of_wrapQueries {bodies : List Str} (hbodies : ∀ body ∈ bodies, ¬ endTag <:+: body) :
    ¬ endTag <:+: bodies.flatMap wrapQuery := by
  induction bodies with
  | nil => exact fun hin => (headOnce_endTag).ne_nil (List.infix_nil.mp hin)
  | cons body bodies ih =>
    intro hin
    rw [List.flatMap_cons, wrapQuery, List.append_assoc, List.append_assoc] at hin
    have hbody := infix_of_other_tag (by decide) (by decide) (by decide) (by decide) hin
    obtain hbody | hclose := (headOnce_endTag).infix_append (by rfl) hbody
    · exact hbodies body List.mem_cons_self hbody
    · refine ih (fun b hb => hbodies b (List.mem_cons_of_mem _ hb)) ?_
      exact infix_of_other_tag (by decide) (by decide) (by decide) (by decide) hclose

theorem isBlock_encodeBlock {bodies : List Str} (hbodies : ∀ body ∈ bodies, ¬ endTag <:+: body) :
    IsBlock (encodeBlock bodies) := by
  refine ⟨'\n' :: bodies.flatMap wrapQuery, ?_, fun hin => ?_⟩
  · rw [encodeBlock, List.cons_append]
  · rw [← List.singleton_append] at hin
    have hrest := infix_of_head_not_mem (by rfl) (by decide) (endTag_of_startTag hin)
    exact endTag_of_wrapQueries hbodies hrest

/-! ## Round trip -/

def Blank (gap : Str) : Prop := ∀ c ∈ gap, isWhitespace c = true

theorem trim_append_blank {gap : Str} (hgap : Blank gap) (s : Str) : trim (gap ++ s) = trim s :=
  trim_append_of_left (trim_eq_nil_iff.mpr hgap) s

theorem not_startTag_of_blank {gap : Str} (hgap : Blank gap) : ¬ startTag <:+: gap := by
  intro hin
  have hmem : '<' ∈ gap := hin.subset (by decide)
  exact absurd (hgap _ hmem) (by decide)

theorem pushRest_nil (piece : Str) : pushRest [] piece = trim piece := by
  unfold pushRest
  rw [if_pos rfl]
  split_ifs with hblank
  · exact hblank.symm
  · rfl

/-- Blank space in front of a summary makes no block. -/
theorem NoBlock.append_blank {gap summary : Str} (h : NoBlock summary) (hgap : Blank gap) :
    NoBlock (gap ++ summary) := by
  intro before inner hsplit
  obtain ⟨x, rfl, hx⟩ | ⟨x, rfl, hx⟩ := List.append_eq_append_iff.mp hsplit
  · exact h x inner hx
  · cases x with
    | nil => exact h [] inner hx.symm
    | cons c x =>
      obtain ⟨hc, -⟩ := List.cons.inj
        (show '<' :: (startTag.tail ++ inner) = c :: (x ++ summary) from hx)
      have hblank := hgap c (List.mem_append_right _ List.mem_cons_self)
      rw [← hc] at hblank
      exact absurd hblank (by decide)

theorem nextBlock_of_noBlock {text : Str} (h : NoBlock text) : nextBlock text = none := by
  unfold nextBlock
  cases hstart : splitOnce startTag text with
  | none => rfl
  | some parts =>
    obtain ⟨before, inner⟩ := parts
    have hnot := h before inner (eq_of_splitOnce hstart)
    rw [Option.bind_some, Option.map_eq_none_iff, splitOnce_eq_none_iff (headOnce_endTag).ne_nil]
    exact fun hin => hnot (endTag_of_startTag hin)

/-- The next block is the one that follows blank space. -/
theorem nextBlock_of_block {gap block after : Str} (hgap : Blank gap) (hblock : IsBlock block) :
    nextBlock (gap ++ (block ++ after)) = some (gap, block, after) := by
  obtain ⟨inner, rfl, hend⟩ := hblock
  have hstart : splitOnce startTag (gap ++ (startTag ++ (inner ++ (endTag ++ after)))) =
      some (gap, inner ++ (endTag ++ after)) :=
    splitOnce_append headOnce_startTag (not_startTag_of_blank hgap)
  have hclose : splitOnce endTag ((startTag ++ inner) ++ (endTag ++ after)) =
      some (startTag ++ inner, after) := splitOnce_append headOnce_endTag hend
  rw [List.append_assoc] at hclose
  unfold nextBlock
  rw [List.append_assoc startTag, List.append_assoc inner, hstart, Option.bind_some]
  dsimp only
  rw [hclose, Option.map_some]
  dsimp only
  rw [List.append_assoc]

theorem splitLoop_noBlock {text : Str} (h : NoBlock text) (fuel : ℕ) (sections : List Str)
    (rest : Str) : splitLoop (fuel + 1) text sections rest = (sections, pushRest rest text) := by
  rw [splitLoop, nextBlock_of_noBlock h]

theorem splitLoop_block {gap block after : Str} (hgap : Blank gap) (hblock : IsBlock block)
    (fuel : ℕ) (sections : List Str) :
    splitLoop (fuel + 1) (gap ++ (block ++ after)) sections [] =
      splitLoop fuel after (sections ++ [block]) [] := by
  have hblank : pushRest [] gap = [] := by
    rw [pushRest_nil]
    exact trim_eq_nil_iff.mpr hgap
  rw [splitLoop, nextBlock_of_block hgap hblock]
  show splitLoop fuel after (sections ++ [block]) (pushRest [] gap) = _
  rw [hblank]

/-- Blocks, each with what stands behind it. -/
def layOut (pairs : List (Str × Str)) : Str := pairs.flatMap fun p => p.1 ++ p.2

theorem layOut_cons (p : Str × Str) (pairs : List (Str × Str)) :
    layOut (p :: pairs) = p.1 ++ (p.2 ++ layOut pairs) := by
  rw [layOut, List.flatMap_cons, List.append_assoc]
  rfl

theorem splitLoop_layOut {pairs : List (Str × Str)} {summary : Str}
    (hblocks : ∀ p ∈ pairs, IsBlock p.1) (hgaps : ∀ p ∈ pairs, Blank p.2)
    (hsummary : NoBlock summary) {fuel : ℕ} (hfuel : pairs.length < fuel) {gap : Str}
    (hgap : Blank gap) (sections : List Str) :
    splitLoop fuel (gap ++ (layOut pairs ++ summary)) sections [] =
      (sections ++ pairs.map Prod.fst, trim summary) := by
  induction pairs generalizing fuel gap sections with
  | nil =>
    obtain ⟨fuel, rfl⟩ : ∃ n, fuel = n + 1 := ⟨fuel - 1, by omega⟩
    have hempty : gap ++ (layOut [] ++ summary) = gap ++ summary := rfl
    rw [hempty, splitLoop_noBlock (hsummary.append_blank hgap), pushRest_nil,
      trim_append_blank hgap, List.map_nil, List.append_nil]
  | cons p pairs ih =>
    rw [List.length_cons] at hfuel
    obtain ⟨fuel, rfl⟩ : ∃ n, fuel = n + 1 := ⟨fuel - 1, by omega⟩
    have hlt : pairs.length < fuel := by omega
    have hrest := ih (fun q hq => hblocks q (List.mem_cons_of_mem _ hq))
      (fun q hq => hgaps q (List.mem_cons_of_mem _ hq)) hlt
      (hgaps p List.mem_cons_self) (sections ++ [p.1])
    rw [layOut_cons, List.append_assoc p.1, List.append_assoc p.2,
      splitLoop_block hgap (hblocks p List.mem_cons_self), hrest, List.append_assoc,
      List.singleton_append, List.map_cons]

theorem IsBlock.ne_nil {block : Str} (h : IsBlock block) : block ≠ [] := by
  obtain ⟨inner, rfl, -⟩ := h
  exact fun hnil => (headOnce_startTag).ne_nil (List.append_eq_nil_iff.mp hnil).1

theorem length_le_layOut {pairs : List (Str × Str)} (hblocks : ∀ p ∈ pairs, IsBlock p.1) :
    pairs.length ≤ (layOut pairs).length := by
  induction pairs with
  | nil => exact Nat.zero_le _
  | cons p pairs ih =>
    have hpos := List.length_pos_of_ne_nil (hblocks p List.mem_cons_self).ne_nil
    have hrest := ih fun q hq => hblocks q (List.mem_cons_of_mem _ hq)
    rw [layOut_cons, List.length_cons, List.length_append, List.length_append]
    omega

/-- Blocks with blank space between them come apart from a summary without blocks. -/
theorem split_layOut {pairs : List (Str × Str)} {summary : Str}
    (hblocks : ∀ p ∈ pairs, IsBlock p.1) (hgaps : ∀ p ∈ pairs, Blank p.2)
    (hsummary : NoBlock summary) :
    splitPriorCompactionText (layOut pairs ++ summary) =
      if pairs = [] then (none, summary)
      else (some (joinLines (pairs.map Prod.fst)), trim summary) := by
  have hfuel : pairs.length < (layOut pairs ++ summary).length + 1 := by
    have hle := length_le_layOut hblocks
    rw [List.length_append]
    omega
  have hnone : Blank [] := nofun
  have hloop := splitLoop_layOut hblocks hgaps hsummary hfuel hnone []
  rw [List.nil_append, List.nil_append] at hloop
  unfold splitPriorCompactionText
  rw [hloop]
  cases pairs with
  | nil => rfl
  | cons p pairs => rfl

end GrokBuild.Compaction
