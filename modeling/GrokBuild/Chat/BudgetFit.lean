import Mathlib
import GrokBuild.Chat.TokenBudget

/-!
# What fits the budget

The last turn decides: if it fits, a suffix with it is kept, and if not, its texts are cut. What is
kept is within the budget, and each result in it stands behind its call.
-/

namespace GrokBuild.Chat

open Text Sections

variable {items body conversation : List ConversationItem} {item : ConversationItem} {budget : ℕ}

/-! ## Results and the calls they belong to -/

/-- Every result answers a call of the item that its run follows, of which `ids` are declared. -/
def Owned : List Str → List ConversationItem → Prop
  | _, [] => True
  | ids, .toolResult r :: rest => r.toolCallId ∈ ids ∧ Owned ids rest
  | _, item :: rest => Owned item.toolCallIds rest

theorem owned_cons_iff (hitem : isResult item = false) (ids : List Str) :
    Owned ids (item :: items) ↔ Owned item.toolCallIds items := by
  cases item with
  | toolResult r => cases hitem
  | _ => rfl

theorem owned_append_results {ids : List Str} {run : List ToolResultItem}
    (hrun : ∀ r ∈ run, r.toolCallId ∈ ids) (h : Owned ids items) :
    Owned ids (run.map .toolResult ++ items) := by
  induction run with
  | nil => exact h
  | cons r run ih =>
    obtain ⟨hr, hrest⟩ := List.forall_mem_cons.mp hrun
    exact ⟨hr, ih hrest⟩

theorem owned_of_wellPaired (h : WellPaired items) : Owned [] items := by
  have hheads := heads_sections items
  have hruns := h.runs
  have hjoin := results.join_sections items
  rw [h.lead, Followers.join_nil] at hjoin
  rw [← hjoin]
  generalize (results.sections items).2 = secs at hheads hruns
  induction secs with
  | nil => trivial
  | cons s secs ih =>
    obtain ⟨head, run⟩ := s
    have hhead : isResult head = false := by
      rw [isResult, hheads (head, run) List.mem_cons_self]
      rfl
    obtain ⟨hrun, hrest⟩ := List.forall_mem_cons.mp hruns
    have hsecs := ih hheads.tail hrest
    have hstart : Owned head.toolCallIds (results.joinSections secs) := by
      cases secs with
      | nil => trivial
      | cons s' secs =>
        have hhead' : isResult s'.1 = false := by
          rw [isResult, hheads.tail s' List.mem_cons_self]
          rfl
        rw [Followers.joinSections_cons, owned_cons_iff hhead'] at hsecs ⊢
        exact hsecs
    rw [Followers.joinSections_cons, owned_cons_iff hhead]
    refine owned_append_results (fun r hr => ?_) hstart
    rw [← declaredIds_eq]
    exact hrun.mem_iff.mp (List.mem_map_of_mem hr)

theorem owned_drop {ids : List Str} (h : Owned ids items) (n : ℕ) :
    ∃ ids', Owned ids' (items.drop n) := by
  induction items generalizing ids n with
  | nil => exact ⟨[], by rw [List.drop_nil]; trivial⟩
  | cons item items ih =>
    cases n with
    | zero => exact ⟨ids, h⟩
    | succ n =>
      rw [List.drop_succ_cons]
      cases item with
      | toolResult r => exact ih h.2 n
      | _ => exact ih h n

/-- Behind an item that is no result it does not matter what was declared before. -/
theorem Owned.suffix {suffix : List ConversationItem} (h : Owned [] items)
    (hsuffix : suffix <:+ items) (hhead : ∀ item ∈ suffix.head?, isResult item = false) :
    Owned [] suffix := by
  obtain ⟨ids, howned⟩ := owned_drop h (items.length - suffix.length)
  rw [← List.suffix_iff_eq_drop.mp hsuffix] at howned
  cases suffix with
  | nil => trivial
  | cons item suffix =>
    have hitem := hhead item rfl
    rw [owned_cons_iff hitem] at howned ⊢
    exact howned

/-- A result has its call before it. -/
def CallsBefore (items : List ConversationItem) : Prop :=
  ∀ front r back, items = front ++ .toolResult r :: back →
    ∃ a, .assistant a ∈ front ∧ r.toolCallId ∈ a.toolCalls.map ToolCall.id

theorem callsBefore_of_owned {ids : List Str} (h : Owned ids items) :
    ∀ front r back, items = front ++ .toolResult r :: back → r.toolCallId ∈ ids ∨
      ∃ a, .assistant a ∈ front ∧ r.toolCallId ∈ a.toolCalls.map ToolCall.id := by
  induction items generalizing ids with
  | nil => exact fun front r back heq => nomatch (List.append_eq_nil_iff.mp heq.symm).2
  | cons item items ih =>
    intro front r back heq
    cases front with
    | nil =>
      obtain ⟨rfl, -⟩ := List.cons.inj heq
      exact .inl h.1
    | cons first front =>
      obtain ⟨rfl, htail⟩ := List.cons.inj heq
      have hlater : (∃ a, .assistant a ∈ front ∧ r.toolCallId ∈ a.toolCalls.map ToolCall.id) →
          ∃ a, .assistant a ∈ item :: front ∧ r.toolCallId ∈ a.toolCalls.map ToolCall.id :=
        fun ⟨a, ha, hr⟩ => ⟨a, List.mem_cons_of_mem _ ha, hr⟩
      cases item with
      | toolResult r' => exact (ih h.2 front r back htail).imp_right hlater
      | assistant a =>
        obtain hr | hr := ih h front r back htail
        · exact .inr ⟨a, List.mem_cons_self, hr⟩
        · exact .inr (hlater hr)
      | _ =>
        obtain hr | hr := ih h front r back htail
        · cases hr
        · exact .inr (hlater hr)

theorem Owned.callsBefore (h : Owned [] items) : CallsBefore items := by
  intro front r back heq
  obtain hnil | hcall := callsBefore_of_owned h front r back heq
  · cases hnil
  · exact hcall

/-! ## The last turn -/

def isSystem : ConversationItem → Bool
  | .system _ => true
  | _ => false

/-- An item that a result or a later system item can follow. -/
def opensTurn (item : ConversationItem) : Bool := !isResult item && !isSystem item

/-- The last item that is neither a result nor a system item, with what is behind it. -/
def lastTurn (body : List ConversationItem) : List ConversationItem :=
  let opener := (body.rdropWhile fun item => !opensTurn item).getLast?
  match opener with
  | some opener => opener :: body.rtakeWhile fun item => !opensTurn item
  | none => body.getLast?.toList

/-- Behind the declared calls there are results and then system items only. -/
theorem exists_results_systems {ids : List Str} (h : Owned ids items)
    (hitems : ∀ item ∈ items, opensTurn item = false) :
    ∃ (run : List ToolResultItem) (systems : List ConversationItem),
      items = run.map .toolResult ++ systems ∧ (∀ item ∈ systems, isSystem item = true) ∧
      (run ≠ [] → ids ≠ []) := by
  induction items generalizing ids with
  | nil => exact ⟨[], [], rfl, nofun, fun hne => absurd rfl hne⟩
  | cons item items ih =>
    obtain ⟨hitem, hrest⟩ := List.forall_mem_cons.mp hitems
    cases item with
    | toolResult r =>
      obtain ⟨run, systems, rfl, hsystems, -⟩ := ih h.2 hrest
      refine ⟨r :: run, systems, rfl, hsystems, fun _ => ?_⟩
      exact List.ne_nil_of_mem h.1
    | system sys =>
      obtain ⟨run, systems, rfl, hsystems, hrun⟩ := ih h hrest
      have hnone : run = [] := by
        by_contra hne
        exact hrun hne rfl
      rw [hnone]
      exact ⟨[], .system sys :: systems, rfl, List.forall_mem_cons.mpr ⟨rfl, hsystems⟩,
        fun hne => absurd rfl hne⟩
    | _ => cases hitem

/-- A body is a list of system items, or ends in a turn: an item that opens it, the results of its
calls, and system items. -/
theorem lastTurn_cases (h : Owned [] body) :
    (∀ item ∈ body, isSystem item = true) ∧ lastTurn body = body.getLast?.toList ∨
      ∃ front opener run systems, body = front ++ lastTurn body ∧
        lastTurn body = opener :: (run.map .toolResult ++ systems) ∧ opensTurn opener = true ∧
        (∀ item ∈ systems, isSystem item = true) ∧ (run ≠ [] → isOwner opener = true) := by
  have hsplit : (body.rdropWhile fun item => !opensTurn item) ++
      (body.rtakeWhile fun item => !opensTurn item) = body := List.rdropWhile_append_rtakeWhile
  have htail : ∀ item ∈ body.rtakeWhile fun item => !opensTurn item, opensTurn item = false := by
    intro item hitem
    have hnot := List.mem_rtakeWhile_imp hitem
    rwa [Bool.not_eq_true'] at hnot
  have hlast : ∀ hne : (body.rdropWhile fun item => !opensTurn item) ≠ [],
      opensTurn ((body.rdropWhile fun item => !opensTurn item).getLast hne) = true := by
    intro hne
    have hnot := List.rdropWhile_last_not (fun item => !opensTurn item) body hne
    rwa [Bool.not_eq_true', Bool.not_eq_false] at hnot
  unfold lastTurn
  generalize (body.rdropWhile fun item => !opensTurn item) = front at hsplit hlast
  generalize (body.rtakeWhile fun item => !opensTurn item) = tail at hsplit htail
  cases hfront : front.getLast? with
  | none =>
    left
    rw [List.getLast?_eq_none_iff.mp hfront, List.nil_append] at hsplit
    subst hsplit
    obtain ⟨run, systems, rfl, hsystems, hrun⟩ := exists_results_systems h htail
    have hnone : run = [] := by
      by_contra hne
      exact hrun hne rfl
    rw [hnone]
    exact ⟨hsystems, rfl⟩
  | some opener =>
    right
    obtain ⟨front', rfl⟩ := List.getLast?_eq_some_iff.mp hfront
    have hopener := hlast (List.concat_ne_nil _ _)
    rw [List.getLast_append_singleton] at hopener
    have hresult : isResult opener = false := by
      rw [opensTurn, Bool.and_eq_true, Bool.not_eq_true'] at hopener
      exact hopener.1
    have howned : Owned [] (opener :: tail) := by
      refine h.suffix ⟨front', ?_⟩ fun item hitem => Option.some.inj hitem ▸ hresult
      rw [← hsplit, List.append_assoc, List.singleton_append]
    rw [owned_cons_iff hresult] at howned
    obtain ⟨run, systems, rfl, hsystems, hrun⟩ := exists_results_systems howned htail
    refine ⟨front', opener, run, systems, ?_, rfl, hopener, hsystems, fun hne => ?_⟩
    · rw [← hsplit, List.append_assoc, List.singleton_append]
    · cases opener with
      | assistant a => exact decide_eq_true fun hnil => hrun hne (congrArg (List.map _) hnil)
      | _ => exact absurd rfl (hrun hne)

/-- Where the last turn does not fit, only a part of what is behind its opener does. -/
theorem fittingSuffix_of_lt {front tail : List ConversationItem} {opener : ConversationItem}
    (hbody : body = front ++ (opener :: tail)) (hover : budget < tokens (opener :: tail)) :
    fittingSuffix body budget <:+ tail := by
  have hturn : opener :: tail <:+ body := ⟨front, hbody.symm⟩
  have hfits := tokens_fittingSuffix_le body budget
  obtain hle | hle := List.suffix_or_suffix_of_suffix (fittingSuffix_suffix body budget) hturn
  · obtain heq | hproper := List.suffix_cons_iff.mp hle
    · rw [heq] at hfits
      omega
    · exact hproper
  · have := tokens_suffix_le hle
    omega

theorem dropWhile_results (run : List ToolResultItem) (systems : List ConversationItem)
    {suffix : List ConversationItem} (h : suffix <:+ run.map .toolResult ++ systems) :
    suffix.dropWhile isResult <:+ systems := by
  induction run generalizing suffix with
  | nil => exact (List.dropWhile_suffix _).trans h
  | cons r run ih =>
    rw [List.map_cons, List.cons_append] at h
    obtain rfl | hrest := List.suffix_cons_iff.mp h
    · rw [List.dropWhile_cons_of_pos rfl]
      exact ih (List.suffix_refl _)
    · exact ih hrest

/-! ## Recovering the last turn -/

/-- The room for each of the results behind their owner. -/
def resultRoom (budget : ℕ) (owner : ConversationItem) (count : ℕ) : ℕ :=
  max ((budget - itemTokens owner) / count) 1

/-- The estimate of a turn whose texts are cut: those of its results, or of the only item. -/
def cutTurnTokens (budget : ℕ) (opener : ConversationItem) (run : List ToolResultItem) : ℕ :=
  if run = [] then cutItemTokens budget opener
  else itemTokens opener + (run.map fun r =>
    cutItemTokens (resultRoom budget opener run.length) (.toolResult r)).sum

/-- The turn with its texts cut. -/
def cutTurn (budget : ℕ) (opener : ConversationItem) (run : List ToolResultItem) :
    List ConversationItem :=
  if run = [] then [truncateItemToTokens opener budget]
  else opener :: (run.map .toolResult).map
    (truncateItemToTokens · (resultRoom budget opener run.length))

theorem tokens_cutTurn (budget : ℕ) (opener : ConversationItem) (run : List ToolResultItem) :
    tokens (cutTurn budget opener run) = cutTurnTokens budget opener run := by
  unfold cutTurn cutTurnTokens
  split_ifs
  · rw [tokens_cons, itemTokens_truncate]
    rfl
  · rw [tokens_cons, tokens, List.map_map, List.map_map]
    congr 2
    exact List.map_congr_left fun r _ => itemTokens_truncate (.toolResult r) _

theorem rtakeWhile_results (front : List ConversationItem) {opener : ConversationItem}
    (hopener : isResult opener = false) (run : List ToolResultItem) :
    (front ++ (opener :: run.map .toolResult)).rtakeWhile isResult = run.map .toolResult ∧
      (front ++ (opener :: run.map .toolResult)).rdropWhile isResult = front ++ [opener] := by
  have hassoc : front ++ (opener :: run.map .toolResult) =
      (front ++ [opener]) ++ run.map ConversationItem.toolResult := by
    rw [List.append_assoc, List.singleton_append]
  rw [hassoc]
  induction run using List.reverseRecOn with
  | nil =>
    rw [List.map_nil, List.append_nil]
    have hnot : ¬ isResult opener = true := Bool.eq_false_iff.mp hopener
    exact ⟨List.rtakeWhile_concat_neg _ _ _ hnot, List.rdropWhile_concat_neg _ _ _ hnot⟩
  | append_singleton run r ih =>
    obtain ⟨htake, hdrop⟩ := ih (by rw [List.append_assoc, List.singleton_append])
    rw [List.map_append, List.map_singleton, ← List.append_assoc (front ++ [opener])]
    constructor
    · rw [List.rtakeWhile_concat_pos _ _ _ rfl, htake]
    · rw [List.rdropWhile_concat_pos _ _ _ rfl, hdrop]

theorem recover_eq_cutTurn {front : List ConversationItem} {opener : ConversationItem}
    {run : List ToolResultItem} (hbody : body = front ++ (opener :: run.map .toolResult))
    (hopener : isResult opener = false) (howner : run ≠ [] → isOwner opener = true) :
    recoverTruncatedTailUnit body budget = cutTurn budget opener run := by
  obtain ⟨htake, hdrop⟩ := rtakeWhile_results front hopener run
  unfold recoverTruncatedTailUnit cutTurn
  rw [hbody, htake, hdrop]
  dsimp only
  rw [List.getLast?_concat]
  by_cases hrun : run = []
  · rw [if_pos hrun, if_pos (List.map_eq_nil_iff.mpr hrun)]
    rfl
  · have hresults : run.map ConversationItem.toolResult ≠ [] := mt List.map_eq_nil_iff.mp hrun
    rw [if_neg hrun, if_neg hresults, Option.filter_some, if_pos (howner hrun), List.length_map]
    rfl

/-- A body that ends in a system item gives that up uncut. -/
theorem recover_system {front : List ConversationItem} {sys : ConversationItem}
    (hbody : body = front ++ [sys]) (hsys : isSystem sys = true) :
    recoverTruncatedTailUnit body budget = [sys] := by
  cases sys with
  | system s =>
    unfold recoverTruncatedTailUnit
    rw [hbody, List.rtakeWhile_concat_neg _ _ _ Bool.false_ne_true,
      List.rdropWhile_concat_neg _ _ _ Bool.false_ne_true]
    dsimp only
    rw [List.getLast?_concat]
    rfl
  | _ => cases hsys

/-! ## What is kept -/

/-- A text as it was, or a prefix of it with the marker. -/
def ShortenedText (old new : Str) : Prop :=
  new = old ∨ ∃ front dropped, front <+: old ∧ new = front ++ truncationMarker dropped

inductive ShortenedPart : ContentPart → ContentPart → Prop
  | text {old new : Str} (h : ShortenedText old new) : ShortenedPart (.text old) (.text new)
  | image (url : Str) : ShortenedPart (.image url) (.image url)

/-- An item as it was, except for the text of its content. -/
inductive ShortenedItem : ConversationItem → ConversationItem → Prop
  | refl (item : ConversationItem) : ShortenedItem item item
  | toolResult (r : ToolResultItem) {content : Str} (h : ShortenedText r.content content) :
      ShortenedItem (.toolResult r) (.toolResult { r with content := content })
  | assistant (a : AssistantItem) {content : Str} (h : ShortenedText a.content content) :
      ShortenedItem (.assistant a) (.assistant { a with content := content })
  | user (u : UserItem) {content : List ContentPart}
      (h : List.Forall₂ ShortenedPart u.content content) :
      ShortenedItem (.user u) (.user { u with content := content })

theorem prefixWithin_prefix (n : ℕ) (s : Str) : prefixWithin n s <+: s := by
  induction s generalizing n with
  | nil => exact List.prefix_refl _
  | cons c s ih =>
    rw [prefixWithin]
    split_ifs
    · exact (List.prefix_cons_inj c).mpr (ih _)
    · exact List.nil_prefix

theorem shortenedText_cutText (maxBytes : ℕ) (s : Str) : ShortenedText s (cutText maxBytes s) := by
  unfold cutText truncateTextToBytes
  split_ifs
  · exact .inl rfl
  · exact .inr ⟨_, _, prefixWithin_prefix _ _, rfl⟩

theorem shortenedItem_truncate (item : ConversationItem) (maxTokens : ℕ) :
    ShortenedItem item (truncateItemToTokens item maxTokens) := by
  cases item with
  | toolResult r => exact .toolResult r (shortenedText_cutText _ _)
  | assistant a => exact .assistant a (shortenedText_cutText _ _)
  | user u =>
    refine .user u (List.forall₂_map_right_iff.mpr (List.forall₂_same.mpr fun part _ => ?_))
    cases part with
    | text text => exact .text (shortenedText_cutText _ _)
    | image url => exact .image url
  | _ => exact .refl _

theorem ShortenedItem.isSystem_eq {old new : ConversationItem} (h : ShortenedItem old new) :
    isSystem new = isSystem old := by
  cases h <;> rfl

/-- The last turn of the body, with nothing but its texts cut. -/
def ShortenedTurn (body rest : List ConversationItem) : Prop :=
  ∃ front opener run, body = front ++ (opener :: run.map .toolResult) ∧
    isResult opener = false ∧ (run ≠ [] → isOwner opener = true) ∧
    List.Forall₂ ShortenedItem (opener :: run.map .toolResult) rest

theorem shortened_cutTurn (budget : ℕ) (opener : ConversationItem) (run : List ToolResultItem) :
    List.Forall₂ ShortenedItem (opener :: run.map .toolResult) (cutTurn budget opener run) := by
  unfold cutTurn
  split_ifs with hrun
  · rw [hrun]
    exact .cons (shortenedItem_truncate _ _) .nil
  · refine .cons (.refl _) (List.forall₂_map_right_iff.mpr ?_)
    exact List.forall₂_same.mpr fun item _ => shortenedItem_truncate _ _

/-- Cutting texts leaves results with their calls. -/
theorem Owned.shortened {ids : List Str} {rest : List ConversationItem} (h : Owned ids items)
    (hrest : List.Forall₂ ShortenedItem items rest) : Owned ids rest := by
  induction hrest generalizing ids with
  | nil => trivial
  | @cons old new items rest hitem hrest ih =>
    cases hitem with
    | refl =>
      cases old with
      | toolResult r => exact ⟨h.1, ih h.2⟩
      | _ => exact ih h
    | toolResult r => exact ⟨h.1, ih h.2⟩
    | assistant a => exact ih h
    | user u => exact ih h

/-! ## The budget -/

/-- What a summarizer's input is to be. -/
structure FitsBudget (conversation : List ConversationItem) (maxTokens : ℕ)
    (fitted : List ConversationItem) : Prop where
  estimated : ∀ item ∈ fitted, (estimateItemTokens item).isSome
  within : tokens fitted ≤ maxTokens
  kept : ∃ rest, fitted = (splitSystemHead conversation).1 ++ rest ∧
    (rest <:+ (splitSystemHead conversation).2 ∨
      ShortenedTurn (splitSystemHead conversation).2 rest)
  nonSystem : (∃ item ∈ conversation, isSystem item = false) →
    ∃ item ∈ fitted, isSystem item = false
  callsBefore : CallsBefore fitted

/-- The last turn fits, as it is or with its texts cut if there is no system item behind it. -/
def LastTurnFits (body : List ConversationItem) (budget : ℕ) : Prop :=
  tokens (lastTurn body) ≤ budget ∨
    ∃ opener run, lastTurn body = opener :: run.map .toolResult ∧ opensTurn opener = true ∧
      cutTurnTokens budget opener run ≤ budget

theorem isResult_of_opensTurn (h : opensTurn item = true) : isResult item = false := by
  rw [opensTurn, Bool.and_eq_true, Bool.not_eq_true'] at h
  exact h.1

theorem isSystem_of_opensTurn (h : opensTurn item = true) : isSystem item = false := by
  rw [opensTurn, Bool.and_eq_true, Bool.not_eq_true', Bool.not_eq_true'] at h
  exact h.2

theorem fitBody_eq (body : List ConversationItem) (budget : ℕ) :
    fitBody body budget =
      if (fittingSuffix body budget).dropWhile isResult = [] then
        recoverTruncatedTailUnit body budget
      else (fittingSuffix body budget).dropWhile isResult := rfl

/-- Where the last turn fits, a suffix is kept that holds it. -/
theorem fitBody_of_le {front tail : List ConversationItem} {opener : ConversationItem}
    (hbody : body = front ++ (opener :: tail)) (hopener : isResult opener = false)
    (hfits : tokens (opener :: tail) ≤ budget) :
    opener :: tail <:+ fitBody body budget ∧ fitBody body budget <:+ body ∧
      tokens (fitBody body budget) ≤ budget ∧
      ∀ item ∈ (fitBody body budget).head?, isResult item = false := by
  obtain ⟨before, hsuffix⟩ := suffix_fittingSuffix ⟨front, hbody.symm⟩ hfits
  have hrest : opener :: tail <:+ (fittingSuffix body budget).dropWhile isResult := by
    rw [← hsuffix]
    clear hsuffix hbody
    induction before with
    | nil =>
      rw [List.nil_append, List.dropWhile_cons_of_neg (Bool.eq_false_iff.mp hopener)]
    | cons item before ih =>
      rw [List.cons_append, List.dropWhile_cons]
      split_ifs
      · exact ih
      · exact ⟨item :: before, rfl⟩
  have hne : (fittingSuffix body budget).dropWhile isResult ≠ [] := by
    intro hnil
    rw [hnil] at hrest
    exact List.cons_ne_nil _ _ (List.suffix_nil.mp hrest)
  have hdrop := List.dropWhile_suffix isResult (l := fittingSuffix body budget)
  rw [fitBody_eq, if_neg hne]
  refine ⟨hrest, hdrop.trans (fittingSuffix_suffix _ _), ?_, fun item hitem => ?_⟩
  · exact (tokens_suffix_le hdrop).trans (tokens_fittingSuffix_le _ _)
  · have hhead := List.head?_dropWhile_not isResult (fittingSuffix body budget)
    rw [hitem] at hhead
    exact hhead

/-- Where the last turn ends in a system item and does not fit, no other item is kept. -/
theorem fitBody_systems {front : List ConversationItem} {opener : ConversationItem}
    {run : List ToolResultItem} {systems : List ConversationItem}
    (hbody : body = front ++ (opener :: (run.map .toolResult ++ systems)))
    (hsystems : ∀ item ∈ systems, isSystem item = true) (hne : systems ≠ [])
    (hover : budget < tokens (opener :: (run.map .toolResult ++ systems))) :
    ∀ item ∈ fitBody body budget, isSystem item = true := by
  have hrest := dropWhile_results run systems (fittingSuffix_of_lt hbody hover)
  rw [fitBody_eq]
  split_ifs
  · obtain ⟨systems', sys, heq⟩ := (List.eq_nil_or_concat systems).resolve_left hne
    rw [List.concat_eq_append] at heq
    subst heq
    have hsys := hsystems sys (List.mem_append_right _ List.mem_cons_self)
    have hlast : body =
        (front ++ (opener :: (run.map .toolResult ++ systems'))) ++ [sys] := by
      rw [hbody, List.append_assoc, List.cons_append, List.append_assoc]
    rw [recover_system hlast hsys]
    exact List.forall_mem_singleton.mpr hsys
  · exact fun item hitem => hsystems item (hrest.subset hitem)

/-- Where the last turn does not fit and no system item is behind it, its texts are cut. -/
theorem fitBody_of_lt {front : List ConversationItem} {opener : ConversationItem}
    {run : List ToolResultItem} (hbody : body = front ++ (opener :: run.map .toolResult))
    (hopener : opensTurn opener = true) (howner : run ≠ [] → isOwner opener = true)
    (hover : budget < tokens (opener :: run.map .toolResult)) :
    fitBody body budget = cutTurn budget opener run := by
  have hsuffix := fittingSuffix_of_lt hbody hover
  rw [← List.append_nil (run.map _)] at hsuffix
  have hnil := List.suffix_nil.mp (dropWhile_results run [] hsuffix)
  rw [fitBody_eq, if_pos hnil, recover_eq_cutTurn hbody (isResult_of_opensTurn hopener) howner]

theorem splitSystemHead_append (conversation : List ConversationItem) :
    (splitSystemHead conversation).1 ++ (splitSystemHead conversation).2 = conversation := by
  unfold splitSystemHead
  split <;> rfl

theorem isSystem_of_mem_head (h : item ∈ (splitSystemHead conversation).1) :
    isSystem item = true := by
  unfold splitSystemHead at h
  split at h
  · rw [List.mem_singleton.mp h]
    rfl
  · cases h

theorem owned_head_append {rest : List ConversationItem} :
    Owned [] ((splitSystemHead conversation).1 ++ rest) ↔ Owned [] rest := by
  unfold splitSystemHead
  split <;> rfl

/-! ## The whole conversation -/

theorem fit_eq (h : ∀ item ∈ conversation, Summarized item) (maxTokens : ℕ) :
    fitConversationToBudget conversation maxTokens =
      some (if tokens conversation ≤ maxTokens then conversation
        else (splitSystemHead conversation).1 ++ fitBody (splitSystemHead conversation).2
          (maxTokens - tokens (splitSystemHead conversation).1)) := by
  unfold fitConversationToBudget
  rw [mapM_estimate h]
  rfl

theorem estimated_of_subset {rest : List ConversationItem}
    (h : ∀ item ∈ conversation, Summarized item) (hrest : rest ⊆ conversation) :
    ∀ item ∈ rest, (estimateItemTokens item).isSome := fun item hitem =>
  estimate_isSome_iff.mpr (h item (hrest hitem))

theorem ShortenedItem.estimated {old new : ConversationItem} (h : ShortenedItem old new)
    (hold : (estimateItemTokens old).isSome) : (estimateItemTokens new).isSome := by
  cases h with
  | refl => exact hold
  | _ => rfl

theorem forall₂_estimated {rest : List ConversationItem}
    (h : List.Forall₂ ShortenedItem items rest)
    (hitems : ∀ item ∈ items, (estimateItemTokens item).isSome) :
    ∀ item ∈ rest, (estimateItemTokens item).isSome := by
  induction h with
  | nil => exact nofun
  | cons hitem _ ih =>
    obtain ⟨hfirst, hrest⟩ := List.forall_mem_cons.mp hitems
    exact List.forall_mem_cons.mpr ⟨hitem.estimated hfirst, ih hrest⟩

/-- What is to be kept of the body. -/
structure BodyFits (body : List ConversationItem) (budget : ℕ) (rest : List ConversationItem) :
    Prop where
  within : tokens rest ≤ budget
  kept : rest <:+ body ∨ ShortenedTurn body rest
  nonSystem : (∃ item ∈ body, isSystem item = false) → ∃ item ∈ rest, isSystem item = false
  owned : Owned [] rest

theorem forall₂_nonSystem {rest : List ConversationItem} (hitem : isSystem item = false)
    (h : List.Forall₂ ShortenedItem (item :: items) rest) :
    ∃ item ∈ rest, isSystem item = false := by
  obtain ⟨new, rest', hnew, -, rfl⟩ := List.forall₂_cons_left_iff.mp h
  exact ⟨new, List.mem_cons_self, hnew.isSystem_eq.trans hitem⟩

theorem BodyFits.of_le {front tail : List ConversationItem} {opener : ConversationItem}
    (howned : Owned [] body) (hbody : body = front ++ (opener :: tail))
    (hopener : isResult opener = false) (hfits : tokens (opener :: tail) ≤ budget)
    (hnonSystem : (∃ item ∈ body, isSystem item = false) → isSystem opener = false) :
    BodyFits body budget (fitBody body budget) := by
  obtain ⟨hin, hsuffix, hwithin, hhead⟩ := fitBody_of_le hbody hopener hfits
  refine ⟨hwithin, .inl hsuffix, fun h => ?_, howned.suffix hsuffix hhead⟩
  exact ⟨opener, hin.subset List.mem_cons_self, hnonSystem h⟩

theorem isResult_of_isSystem (h : isSystem item = true) : isResult item = false := by
  cases item with
  | system s => rfl
  | _ => cases h

theorem bodyFits_of_lastTurnFits (howned : Owned [] body) (hne : body ≠ [])
    (hfits : LastTurnFits body budget) : BodyFits body budget (fitBody body budget) := by
  obtain ⟨hall, hlast⟩ | ⟨front, opener, run, systems, hbody, hturn, hopener, hsystems, howner⟩ :=
    lastTurn_cases howned
  · -- the body has system items only, so its last turn is the last of them
    obtain ⟨front, sys, heq⟩ := (List.eq_nil_or_concat body).resolve_left hne
    rw [List.concat_eq_append] at heq
    have hsys := hall sys (heq ▸ List.mem_append_right _ List.mem_cons_self)
    have hlast' : lastTurn body = [sys] := by
      rw [hlast, heq, List.getLast?_concat]
      rfl
    have hwhole : tokens [sys] ≤ budget := by
      obtain hwhole | ⟨opener, run, hrun, hopener, -⟩ := hfits
      · rwa [hlast'] at hwhole
      · rw [hlast'] at hrun
        obtain ⟨rfl, -⟩ := List.cons.inj hrun
        rw [isSystem_of_opensTurn hopener] at hsys
        cases hsys
    refine BodyFits.of_le howned heq (isResult_of_isSystem hsys) hwhole ?_
    rintro ⟨item, hitem, hnot⟩
    rw [hall item hitem] at hnot
    cases hnot
  · rw [hturn] at hbody
    by_cases hwhole : tokens (lastTurn body) ≤ budget
    · rw [hturn] at hwhole
      exact BodyFits.of_le howned hbody (isResult_of_opensTurn hopener) hwhole fun _ =>
        isSystem_of_opensTurn hopener
    · obtain ⟨opener', run', hturn', -, hcut⟩ := hfits.resolve_left hwhole
      rw [hturn] at hturn' hwhole
      obtain ⟨rfl, htail⟩ := List.cons.inj hturn'
      have hnil : systems = [] := by
        by_contra hsys
        have hmem := List.getLast_mem hsys
        have hresult : systems.getLast hsys ∈ run'.map ConversationItem.toolResult :=
          htail ▸ List.mem_append_right _ hmem
        obtain ⟨r, -, hr⟩ := List.mem_map.mp hresult
        have := hsystems _ hmem
        rw [← hr] at this
        cases this
      subst hnil
      rw [List.append_nil] at htail hbody hwhole
      have hinjective : Function.Injective ConversationItem.toolResult := fun r r' h =>
        ConversationItem.toolResult.inj h
      obtain rfl := List.map_injective_iff.mpr hinjective htail
      have hshort := shortened_cutTurn budget opener run
      rw [fitBody_of_lt hbody hopener howner (Nat.lt_of_not_le hwhole)]
      refine ⟨?_, .inr ⟨front, opener, run, hbody, isResult_of_opensTurn hopener, howner, hshort⟩,
        fun _ => forall₂_nonSystem (isSystem_of_opensTurn hopener) hshort, ?_⟩
      · rw [tokens_cutTurn]
        exact hcut
      · refine Owned.shortened (howned.suffix ⟨front, hbody.symm⟩ ?_) hshort
        exact fun item hitem => Option.some.inj hitem ▸ isResult_of_opensTurn hopener

theorem lastTurnFits_of_bodyFits (howned : Owned [] body)
    (hwithin : tokens (fitBody body budget) ≤ budget)
    (hnonSystem : (∃ item ∈ body, isSystem item = false) →
      ∃ item ∈ fitBody body budget, isSystem item = false) : LastTurnFits body budget := by
  by_contra hnot
  obtain ⟨hover, hcut⟩ := not_or.mp hnot
  have hover := Nat.lt_of_not_le hover
  obtain ⟨hall, hlast⟩ | ⟨front, opener, run, systems, hbody, hturn, hopener, hsystems, howner⟩ :=
    lastTurn_cases howned
  · obtain rfl | ⟨front, sys, heq⟩ := List.eq_nil_or_concat body
    · exact absurd hover (Nat.not_lt_zero _)
    · rw [List.concat_eq_append] at heq
      have hsys := hall sys (heq ▸ List.mem_append_right _ List.mem_cons_self)
      rw [hlast, heq, List.getLast?_concat] at hover
      have hnil := List.suffix_nil.mp (fittingSuffix_of_lt heq hover)
      rw [fitBody_eq, hnil, List.dropWhile_nil, if_pos rfl, recover_system heq hsys] at hwithin
      exact absurd hwithin (Nat.not_le_of_lt hover)
  · rw [hturn] at hbody hover
    by_cases hnil : systems = []
    · subst hnil
      rw [List.append_nil] at hbody hover hturn
      rw [fitBody_of_lt hbody hopener howner hover, tokens_cutTurn] at hwithin
      exact hcut ⟨opener, run, hturn, hopener, hwithin⟩
    · obtain ⟨item, hitem, hkept⟩ := hnonSystem ⟨opener,
        hbody ▸ List.mem_append_right _ List.mem_cons_self, isSystem_of_opensTurn hopener⟩
      rw [fitBody_systems hbody hsystems hnil hover item hitem] at hkept
      cases hkept

theorem lastTurn_suffix (howned : Owned [] body) : lastTurn body <:+ body := by
  obtain ⟨-, hlast⟩ | ⟨front, opener, run, systems, hbody, -⟩ := lastTurn_cases howned
  · obtain rfl | ⟨front, sys, heq⟩ := List.eq_nil_or_concat body
    · exact List.suffix_refl _
    · rw [List.concat_eq_append] at heq
      rw [hlast, heq, List.getLast?_concat]
      exact List.suffix_append _ _
  · exact ⟨front, hbody.symm⟩

/-- For a paired conversation with room behind the system item, the input fits exactly if no
summary cuts a character and the last turn fits. -/
theorem fitsBudget_iff {maxTokens : ℕ} (hpaired : WellPaired conversation)
    (hroom : tokens (splitSystemHead conversation).1 +
      64 * (conversation.rtakeWhile isResult).length ≤ maxTokens) :
    (∃ fitted, fitConversationToBudget conversation maxTokens = some fitted ∧
      FitsBudget conversation maxTokens fitted) ↔
    CodeCutsCleanly conversation ∧ LastTurnFits (splitSystemHead conversation).2
      (maxTokens - tokens (splitSystemHead conversation).1) := by
  have howned := owned_of_wellPaired hpaired
  have hsplit := splitSystemHead_append conversation
  have htotal := tokens_append (splitSystemHead conversation).1 (splitSystemHead conversation).2
  have hbodyOwned : Owned [] (splitSystemHead conversation).2 := by
    rw [← hsplit, owned_head_append] at howned
    exact howned
  have hnonSystem : (∃ item ∈ conversation, isSystem item = false) ↔
      ∃ item ∈ (splitSystemHead conversation).2, isSystem item = false := by
    conv_lhs => rw [← hsplit]
    constructor
    · rintro ⟨item, hitem, hnot⟩
      obtain hhead | hbody := List.mem_append.mp hitem
      · rw [isSystem_of_mem_head hhead] at hnot
        cases hnot
      · exact ⟨item, hbody, hnot⟩
    · rintro ⟨item, hitem, hnot⟩
      exact ⟨item, List.mem_append_right _ hitem, hnot⟩
  rw [hsplit] at htotal
  rw [← summarized_iff]
  constructor
  · rintro ⟨fitted, hfitted, hfits⟩
    obtain ⟨costs, hcosts, -⟩ := Option.map_eq_some_iff.mp hfitted
    have hsummarized := summarized_of_mapM hcosts
    refine ⟨hsummarized, ?_⟩
    rw [fit_eq hsummarized, Option.some_inj] at hfitted
    split_ifs at hfitted with hwhole
    · refine .inl ((tokens_suffix_le (lastTurn_suffix hbodyOwned)).trans ?_)
      omega
    · have hwithin := hfits.within
      rw [← hfitted, tokens_append] at hwithin
      refine lastTurnFits_of_bodyFits hbodyOwned (by omega) fun hbody => ?_
      obtain ⟨item, hitem, hnot⟩ := hfits.nonSystem (hnonSystem.mpr hbody)
      rw [← hfitted] at hitem
      obtain hhead | hrest := List.mem_append.mp hitem
      · rw [isSystem_of_mem_head hhead] at hnot
        cases hnot
      · exact ⟨item, hrest, hnot⟩
  · rintro ⟨hsummarized, hlast⟩
    rw [fit_eq hsummarized]
    refine ⟨_, rfl, ?_⟩
    split_ifs with hwhole
    · exact ⟨estimated_of_subset hsummarized (List.Subset.refl _), hwhole,
        ⟨_, hsplit.symm, .inl (List.suffix_refl _)⟩, id, howned.callsBefore⟩
    · have hne : (splitSystemHead conversation).2 ≠ [] := by
        intro hnil
        rw [hnil] at htotal
        have hempty : tokens [] = 0 := rfl
        omega
      obtain ⟨hwithin, hkept, hkeeps, hrest⟩ := bodyFits_of_lastTurnFits hbodyOwned hne hlast
      have hbodyEstimated : ∀ item ∈ (splitSystemHead conversation).2,
          (estimateItemTokens item).isSome := by
        refine estimated_of_subset hsummarized fun item hitem => ?_
        rw [← hsplit]
        exact List.mem_append_right _ hitem
      refine ⟨List.forall_mem_append.mpr ⟨?_, ?_⟩, ?_, ⟨_, rfl, hkept⟩, fun h => ?_,
        (owned_head_append.2 hrest).callsBefore⟩
      · refine estimated_of_subset hsummarized fun item hitem => ?_
        rw [← hsplit]
        exact List.mem_append_left _ hitem
      · obtain hsuffix | ⟨front, opener, run, hbody, -, -, hshort⟩ := hkept
        · exact fun item hitem => hbodyEstimated item (hsuffix.subset hitem)
        · refine forall₂_estimated hshort fun item hitem => hbodyEstimated item ?_
          rw [hbody]
          exact List.mem_append_right _ hitem
      · rw [tokens_append]
        omega
      · obtain ⟨item, hitem, hnot⟩ := hkeeps (hnonSystem.mp h)
        exact ⟨item, List.mem_append_right _ hitem, hnot⟩

/-- A call whose result is larger than the budget. -/
def longResult : List ConversationItem :=
  [.system ⟨"sys".toList⟩, .user { content := [.text "look".toList] },
    .assistant ⟨[], [⟨"call".toList, "read".toList, "args".toList⟩]⟩,
    .ofToolResult "call".toList (List.replicate 400 'x')]

theorem longResult_fits :
    ∃ fitted, fitConversationToBudget longResult 65 = some fitted ∧
      FitsBudget longResult 65 fitted := by
  have hpaired : WellPaired longResult := by
    refine ⟨rfl, ?_, ?_⟩
    · exact List.forall_mem_cons.mpr ⟨.nil, List.forall_mem_cons.mpr ⟨.nil,
        List.forall_mem_singleton.mpr (.refl _)⟩⟩
    · exact List.forall_mem_cons.mpr ⟨List.nodup_nil, List.forall_mem_cons.mpr ⟨List.nodup_nil,
        List.forall_mem_singleton.mpr (List.nodup_singleton _)⟩⟩
  refine (fitsBudget_iff hpaired (by decide +kernel)).mpr ⟨fun code hcode => ?_, .inr ?_⟩
  · cases hcode with
    | tail _ h => cases h with
      | tail _ h => cases h with
        | tail _ h => cases h with
          | tail _ h => cases h
  · exact ⟨_, [⟨"call".toList, List.replicate 400 'x', []⟩], rfl, rfl, by decide +kernel⟩

/-- Byte 100 of the code is inside its last character. -/
def splitCode : ConversationItem :=
  .backendToolCall ⟨.codeInterpreter (some (List.replicate 99 'a' ++ ['\u00e9']))⟩

/-- The estimate of a code-interpreter call panics. -/
theorem fit_panics :
    ¬ ∀ (conversation : List ConversationItem) (maxTokens : ℕ), WellPaired conversation →
      tokens (splitSystemHead conversation).1 +
        64 * (conversation.rtakeWhile isResult).length ≤ maxTokens →
      ∃ fitted, fitConversationToBudget conversation maxTokens = some fitted ∧
        FitsBudget conversation maxTokens fitted := by
  intro h
  have hpaired : WellPaired [splitCode] :=
    ⟨rfl, List.forall_mem_singleton.mpr .nil, List.forall_mem_singleton.mpr List.nodup_nil⟩
  obtain ⟨fitted, hfitted, -⟩ := h [splitCode] 1000 hpaired (by decide +kernel)
  have hpanic : fitConversationToBudget [splitCode] 1000 = none := by decide +kernel
  rw [hpanic] at hfitted
  cases hfitted

/-! ## Room enough -/

end GrokBuild.Chat
