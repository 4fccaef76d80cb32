import Mathlib
import GrokBuild.Chat.RequestPairing
import GrokBuild.Text.ByteSlices

/-!
# Token estimates

A conversation is cut down to a budget of estimated tokens. The newest items that fit are kept,
without results whose call is not kept. Where not even the last turn fits, its texts are cut; call
arguments, images, reasoning and summaries are not.
-/

namespace GrokBuild.Chat

open Text Sections

/-! ## Estimates -/

/-- `BYTES_PER_TOKEN`. -/
def bytesPerToken : ℕ := 4

/-- `IMAGE_TOKEN_ESTIMATE`. -/
def imageTokenEstimate : ℕ := 765

def estimateTokens (s : Str) : ℕ := utf8Len s / bytesPerToken

def ContentPart.textBytes : ContentPart → ℕ
  | .text t => utf8Len t
  | .image _ => 0

def ContentPart.imageTokens : ContentPart → ℕ
  | .text _ => 0
  | .image _ => imageTokenEstimate

def userTokens (content : List ContentPart) : ℕ :=
  (content.map ContentPart.textBytes).sum / bytesPerToken +
    (content.map ContentPart.imageTokens).sum

def assistantTokens (content : Str) (toolCalls : List ToolCall) : ℕ :=
  (utf8Len content + (toolCalls.map fun call => utf8Len call.arguments).sum) / bytesPerToken

/-- `none` where the summary of a backend call panics. -/
def estimateItemTokens : ConversationItem → Option ℕ
  | .system s => some (estimateTokens s.content)
  | .user u => some (userTokens u.content)
  | .assistant a => some (assistantTokens a.content a.toolCalls)
  | .toolResult r => some (estimateTokens r.content)
  | .backendToolCall b => b.textSummary.map estimateTokens
  | .reasoning r =>
    let textBytes := utf8Len (reasoningItemText r)
    let encBytes := utf8Len (r.encryptedContent.getD [])
    some (max textBytes (encBytes * 3 / 4) / bytesPerToken)

/-- The estimate of an item that was estimated before. -/
def itemTokens (item : ConversationItem) : ℕ := (estimateItemTokens item).getD 0

def tokens (items : List ConversationItem) : ℕ := (items.map itemTokens).sum

/-! ## Cutting texts -/

/-- The longest prefix of whole characters within a number of bytes. -/
def prefixWithin : ℕ → Str → Str
  | _, [] => []
  | n, c :: s => if c.utf8Size ≤ n then c :: prefixWithin (n - c.utf8Size) s else []

/-- `MARKER_RESERVE`. -/
def markerReserve : ℕ := 64

def truncationMarker (dropped : ℕ) : Str :=
  '\n' :: ("[... truncated ".toList ++ (dropped.repr.toList ++
    " bytes to fit the compaction window ...]".toList))

def truncateTextToBytes (s : Str) (maxBytes : ℕ) : Option Str :=
  if utf8Len s ≤ maxBytes then none
  else
    let front := prefixWithin (maxBytes - markerReserve) s
    some (front ++ truncationMarker (utf8Len s - utf8Len front))

def cutText (maxBytes : ℕ) (s : Str) : Str := (truncateTextToBytes s maxBytes).getD s

/-- `usize::saturating_mul`. -/
def saturatingMul (a b : ℕ) : ℕ := min (a * b) (2 ^ 64 - 1)

def cutPart (maxBytes : ℕ) : ContentPart → ContentPart
  | .text text => .text (cutText maxBytes text)
  | .image url => .image url

def truncateItemToTokens (item : ConversationItem) (maxTokens : ℕ) : ConversationItem :=
  let maxBytes := saturatingMul maxTokens 4
  match item with
  | .toolResult r => .toolResult { r with content := cutText maxBytes r.content }
  | .assistant a => .assistant { a with content := cutText maxBytes a.content }
  | .user u => .user { u with content := u.content.map (cutPart maxBytes) }
  | other => other

/-! ## Fitting -/

def isResult (item : ConversationItem) : Bool := item.asToolResult.isSome

/-- An assistant item with calls, the only one that results belong to. -/
def isOwner : ConversationItem → Bool
  | .assistant a => a.toolCalls ≠ []
  | _ => false

def recoverTruncatedTailUnit (body : List ConversationItem) (budget : ℕ) : List ConversationItem :=
  let results := body.rtakeWhile isResult
  let body := body.rdropWhile isResult
  if results = [] then (body.getLast?.map (truncateItemToTokens · budget)).toList
  else
    let owner := body.getLast?.filter isOwner
    let ownerCost := (owner.map itemTokens).getD 0
    let per := max ((budget - ownerCost) / results.length) 1
    owner.toList ++ results.map (truncateItemToTokens · per)

/-- How many of the newest items fit, from the costs of the newest first. -/
def newestFitting : ℕ → List ℕ → ℕ
  | _, [] => 0
  | remaining, cost :: costs =>
    if remaining < cost then 0 else newestFitting (remaining - cost) costs + 1

def splitSystemHead : List ConversationItem → List ConversationItem × List ConversationItem
  | .system s :: body => ([.system s], body)
  | body => ([], body)

/-- What is kept behind the leading system item. -/
def fitBody (body : List ConversationItem) (budget : ℕ) : List ConversationItem :=
  let start := body.length - newestFitting budget (body.reverse.map itemTokens)
  let rest := (body.drop start).dropWhile isResult
  if rest = [] then recoverTruncatedTailUnit body budget else rest

/-- `none` where the estimate of an item panics. -/
def fitConversationToBudget (conversation : List ConversationItem) (maxTokens : ℕ) :
    Option (List ConversationItem) :=
  (conversation.mapM estimateItemTokens).map fun costs =>
    if costs.sum ≤ maxTokens then conversation
    else
      let (head, body) := splitSystemHead conversation
      head ++ fitBody body (maxTokens - tokens head)

/-! ## Estimates that do not panic -/

variable {items body conversation : List ConversationItem} {item : ConversationItem} {budget : ℕ}

theorem estimate_isSome_iff : (estimateItemTokens item).isSome ↔ Summarized item := by
  unfold Summarized
  cases item with
  | backendToolCall b =>
    rw [estimateItemTokens, Option.isSome_map]
    constructor
    · rintro h b' heq
      cases heq
      exact h
    · exact fun h => h b rfl
  | _ => exact iff_of_true rfl nofun

theorem mapM_estimate (h : ∀ item ∈ items, Summarized item) :
    items.mapM estimateItemTokens = some (items.map itemTokens) := by
  induction items with
  | nil => rfl
  | cons item items ih =>
    have hitem := estimate_isSome_iff.2 (h item List.mem_cons_self)
    obtain ⟨cost, hcost⟩ := Option.isSome_iff_exists.mp hitem
    rw [List.mapM_cons, hcost, ih fun x hx => h x (List.mem_cons_of_mem _ hx), List.map_cons,
      itemTokens, hcost]
    rfl

theorem summarized_of_mapM {costs : List ℕ} (h : items.mapM estimateItemTokens = some costs) :
    ∀ item ∈ items, Summarized item := by
  induction items generalizing costs with
  | nil => exact nofun
  | cons item items ih =>
    rw [List.mapM_cons, Option.bind_eq_bind] at h
    obtain ⟨cost, hcost, hrest⟩ := Option.bind_eq_some_iff.mp h
    rw [Option.bind_eq_bind] at hrest
    obtain ⟨costs', hcosts, -⟩ := Option.bind_eq_some_iff.mp hrest
    refine List.forall_mem_cons.mpr ⟨estimate_isSome_iff.1 ?_, ih hcosts⟩
    rw [hcost]
    rfl

theorem tokens_append (items more : List ConversationItem) :
    tokens (items ++ more) = tokens items + tokens more := by
  unfold tokens
  rw [List.map_append, List.sum_append]

theorem tokens_cons (item : ConversationItem) (items : List ConversationItem) :
    tokens (item :: items) = itemTokens item + tokens items := rfl

/-! ## The newest items that fit -/

theorem sum_newestFitting_le (budget : ℕ) (costs : List ℕ) :
    (costs.take (newestFitting budget costs)).sum ≤ budget := by
  induction costs generalizing budget with
  | nil => exact Nat.zero_le _
  | cons cost costs ih =>
    rw [newestFitting]
    split_ifs with hover
    · exact Nat.zero_le _
    · have hrest := ih (budget - cost)
      rw [List.take_succ_cons, List.sum_cons]
      omega

/-- No more could have been kept. -/
theorem le_newestFitting {n : ℕ} {costs : List ℕ} (hn : n ≤ costs.length)
    (h : (costs.take n).sum ≤ budget) : n ≤ newestFitting budget costs := by
  induction costs generalizing budget n with
  | nil => exact hn
  | cons cost costs ih =>
    cases n with
    | zero => exact Nat.zero_le _
    | succ n =>
      rw [List.take_succ_cons, List.sum_cons] at h
      rw [newestFitting, if_neg (by omega)]
      exact Nat.succ_le_succ (ih (Nat.le_of_succ_le_succ hn) (by omega))

/-- The suffix that fits. -/
def fittingSuffix (body : List ConversationItem) (budget : ℕ) : List ConversationItem :=
  body.drop (body.length - newestFitting budget (body.reverse.map itemTokens))

theorem tokens_reverse (items : List ConversationItem) : tokens items.reverse = tokens items := by
  unfold tokens
  rw [List.map_reverse, List.sum_reverse]

theorem take_reverse_tokens (body : List ConversationItem) (n : ℕ) :
    ((body.reverse.map itemTokens).take n).sum = tokens (body.drop (body.length - n)) := by
  rw [← List.map_take, List.take_reverse]
  exact tokens_reverse _

theorem tokens_fittingSuffix_le (body : List ConversationItem) (budget : ℕ) :
    tokens (fittingSuffix body budget) ≤ budget := by
  unfold fittingSuffix
  rw [← take_reverse_tokens]
  exact sum_newestFitting_le _ _

theorem fittingSuffix_suffix (body : List ConversationItem) (budget : ℕ) :
    fittingSuffix body budget <:+ body := List.drop_suffix _ _

/-- A suffix that fits is in the one that is kept. -/
theorem suffix_fittingSuffix {suffix : List ConversationItem} (hsuffix : suffix <:+ body)
    (h : tokens suffix ≤ budget) : suffix <:+ fittingSuffix body budget := by
  obtain ⟨front, rfl⟩ := hsuffix
  have hlen : suffix.length ≤ ((front ++ suffix).reverse.map itemTokens).length := by
    rw [List.length_map, List.length_reverse, List.length_append]
    exact Nat.le_add_left _ _
  have hdrop : (front ++ suffix).drop ((front ++ suffix).length - suffix.length) = suffix := by
    rw [List.length_append, Nat.add_sub_cancel, List.drop_left]
  have hfits : suffix.length ≤ newestFitting budget ((front ++ suffix).reverse.map itemTokens) := by
    apply le_newestFitting hlen
    rw [take_reverse_tokens, hdrop]
    exact h
  unfold fittingSuffix
  conv_lhs => rw [← hdrop]
  exact List.drop_suffix_drop_left _ (by omega)

theorem tokens_suffix_le {suffix : List ConversationItem} (h : suffix <:+ items) :
    tokens suffix ≤ tokens items := by
  obtain ⟨front, rfl⟩ := h
  rw [tokens_append]
  exact Nat.le_add_left _ _

/-! ## Sizes of cut texts -/

/-- What stands in the marker besides the number. -/
def markerBytes : ℕ := 56

/-- The bytes of a text that is cut to the room, marker included. -/
def cutBytes (maxBytes : ℕ) (s : Str) : ℕ :=
  if utf8Len s ≤ maxBytes then utf8Len s
  else
    let keep := utf8Len (prefixWithin (maxBytes - markerReserve) s)
    keep + (markerBytes + (utf8Len s - keep).repr.toList.length)

theorem utf8Len_digits (n : ℕ) : utf8Len n.repr.toList = n.repr.toList.length := by
  rw [Nat.toList_repr]
  have hdigits : ∀ c ∈ Nat.toDigits 10 n, c.isDigit = true := fun c hc =>
    Nat.isDigit_of_mem_toDigits (by omega) (by omega) hc
  generalize Nat.toDigits 10 n = cs at hdigits
  induction cs with
  | nil => rfl
  | cons c cs ih =>
    obtain ⟨hc, hrest⟩ := List.forall_mem_cons.mp hdigits
    have hsize : c.utf8Size = 1 := by
      rw [Char.isDigit, Bool.and_eq_true, decide_eq_true_eq, decide_eq_true_eq] at hc
      exact Char.utf8Size_eq_one_iff.mpr (UInt32.le_trans hc.2 (by decide))
    rw [utf8Len_cons, hsize, ih hrest, List.length_cons, Nat.add_comm]

theorem utf8Len_marker (dropped : ℕ) :
    utf8Len (truncationMarker dropped) = markerBytes + dropped.repr.toList.length := by
  have hopen : utf8Len "[... truncated ".toList = 15 := by decide +kernel
  have hclose : utf8Len " bytes to fit the compaction window ...]".toList = 40 := by
    decide +kernel
  have hnewline : '\n'.utf8Size = 1 := by decide
  rw [truncationMarker, utf8Len_cons, utf8Len_append, utf8Len_append, hopen, hclose,
    utf8Len_digits, hnewline, markerBytes]
  omega

theorem utf8Len_cutText (maxBytes : ℕ) (s : Str) :
    utf8Len (cutText maxBytes s) = cutBytes maxBytes s := by
  unfold cutText cutBytes truncateTextToBytes
  split_ifs
  · rfl
  · dsimp only
    rw [Option.getD_some, utf8Len_append, utf8Len_marker]

def cutPartBytes (maxBytes : ℕ) : ContentPart → ℕ
  | .text text => cutBytes maxBytes text
  | .image _ => 0

/-- The estimate of an item whose texts are cut. -/
def cutItemTokens (maxTokens : ℕ) : ConversationItem → ℕ
  | .toolResult r => cutBytes (saturatingMul maxTokens 4) r.content / bytesPerToken
  | .assistant a =>
    (cutBytes (saturatingMul maxTokens 4) a.content +
      (a.toolCalls.map fun call => utf8Len call.arguments).sum) / bytesPerToken
  | .user u =>
    (u.content.map (cutPartBytes (saturatingMul maxTokens 4))).sum / bytesPerToken +
      (u.content.map ContentPart.imageTokens).sum
  | other => itemTokens other

theorem textBytes_cutPart (maxBytes : ℕ) :
    ContentPart.textBytes ∘ cutPart maxBytes = cutPartBytes maxBytes := by
  funext part
  cases part with
  | text text => exact utf8Len_cutText maxBytes text
  | image url => rfl

theorem imageTokens_cutPart (maxBytes : ℕ) :
    ContentPart.imageTokens ∘ cutPart maxBytes = ContentPart.imageTokens := by
  funext part
  cases part <;> rfl

theorem itemTokens_truncate (item : ConversationItem) (maxTokens : ℕ) :
    itemTokens (truncateItemToTokens item maxTokens) = cutItemTokens maxTokens item := by
  cases item with
  | toolResult r =>
    show estimateTokens (cutText _ r.content) = _
    rw [estimateTokens, utf8Len_cutText]
    rfl
  | assistant a =>
    show assistantTokens (cutText _ a.content) a.toolCalls = _
    rw [assistantTokens, utf8Len_cutText]
    rfl
  | user u =>
    show userTokens (u.content.map (cutPart _)) = _
    rw [userTokens, List.map_map, List.map_map, textBytes_cutPart, imageTokens_cutPart]
    rfl
  | _ => rfl

end GrokBuild.Chat
