import Mathlib
import GrokBuild.Chat.ImageSizes

/-!
# Reclaiming space from images

Eviction reaches its target exactly if the loop does not stop on a tracked size that small images
have left too low.
-/

namespace GrokBuild.Chat

open Text

variable {serializer : ItemSerializer} {conversation items : List ConversationItem}
  {running trigger target : ℕ}

/-! ## One step -/

def hiddenOldest (conversation : List ConversationItem) : ℕ :=
  (conversation.find? hasImage).elim 0 hiddenBytes

def droppedOldest (conversation : List ConversationItem) : ℕ :=
  (conversation.find? hasImage).elim 0 droppedBytes

def removableTotal (conversation : List ConversationItem) : ℕ :=
  (conversation.map removableBytes).sum

theorem cleanPart_evict {parts : List ContentPart} (h : ∀ part ∈ parts, CleanPart part) :
    (∀ part ∈ replaceFirstImage parts, CleanPart part) ∧
      ∀ part ∈ parts.eraseP ContentPart.isImage, CleanPart part := by
  refine ⟨?_, fun part hpart => h part (List.mem_of_mem_eraseP hpart)⟩
  induction parts with
  | nil => exact List.forall_mem_nil _
  | cons part parts ih =>
    obtain ⟨hpart, hparts⟩ := List.forall_mem_cons.mp h
    rw [replaceFirstImage]
    split_ifs
    · exact List.forall_mem_cons.mpr ⟨trivial, hparts⟩
    · exact List.forall_mem_cons.mpr ⟨hpart, ih hparts⟩

theorem CleanImages.evictOldest (h : CleanImages conversation) :
    CleanImages (evictOldest conversation) := by
  induction conversation with
  | nil => exact List.forall_mem_nil _
  | cons item items ih =>
    obtain ⟨hitem, hitems⟩ := List.forall_mem_cons.mp h
    rw [Chat.evictOldest]
    split_ifs
    · refine List.forall_mem_cons.mpr ⟨?_, hitems⟩
      cases item with
      | user u => exact (cleanPart_evict hitem).1
      | toolResult r => exact (cleanPart_evict hitem).2
      | _ => exact fun _ hpart => by cases hpart
    · exact List.forall_mem_cons.mpr ⟨hitem, ih hitems⟩

theorem jsonBytes_replace (serializer : ItemSerializer) (front back : List ConversationItem)
    (old new : ConversationItem) :
    jsonBytes serializer (front ++ new :: back) + utf8Len (jsonItem serializer old) =
      jsonBytes serializer (front ++ old :: back) + utf8Len (jsonItem serializer new) := by
  have hreplace := joinedBytes_replace (front.map fun item => utf8Len (jsonItem serializer item))
    (back.map fun item => utf8Len (jsonItem serializer item))
    (utf8Len (jsonItem serializer old)) (utf8Len (jsonItem serializer new))
  rw [jsonBytes_eq, jsonBytes_eq]
  simp only [List.map_append, List.map_cons]
  omega

theorem trackOldest_spec (h : conversation.any hasImage = true) (hclean : CleanImages conversation)
    (hcovered : removableTotal conversation ≤ running) :
    trackOldest conversation running + jsonBytes serializer conversation +
          hiddenOldest conversation =
        running + jsonBytes serializer (evictOldest conversation) + droppedOldest conversation ∧
      removableTotal (evictOldest conversation) ≤ trackOldest conversation running := by
  obtain ⟨front, item, back, rfl, hfront, hitem⟩ := conversation_split h
  have hnone : front.find? hasImage = none :=
    List.find?_eq_none.mpr (List.any_eq_false.mp hfront)
  have hfind : (front ++ item :: back).find? hasImage = some item := by
    rw [List.find?_append, hnone, Option.none_or, List.find?_cons_of_pos hitem]
  have hmem : item ∈ front ++ item :: back := List.mem_append_right _ List.mem_cons_self
  have hremovable : ∀ x : ConversationItem, removableTotal (front ++ x :: back) =
      removableTotal front + (removableBytes x + removableTotal back) := by
    intro x
    simp only [removableTotal, List.map_append, List.map_cons, List.sum_append, List.sum_cons]
  rw [hremovable] at hcovered
  have hsize := jsonBytes_replace serializer front back item (evictFromItem item)
  obtain ⟨hjson, hleft⟩ := @trackItem_spec serializer item running hitem (hclean item hmem)
    (by omega)
  rw [evictOldest_append hfront hitem, trackOldest_append hfront hitem, hremovable, hiddenOldest,
    droppedOldest, hfind]
  dsimp only [Option.elim_some]
  omega

/-! ## Several steps -/

/-- What placeholders added unseen up to some image. -/
def hiddenUpTo : ℕ → List ConversationItem → ℕ
  | 0, _ => 0
  | k + 1, conversation => hiddenOldest conversation + hiddenUpTo k (evictOldest conversation)

/-- What emptied image fields took along up to some image. -/
def droppedUpTo : ℕ → List ConversationItem → ℕ
  | 0, _ => 0
  | k + 1, conversation => droppedOldest conversation + droppedUpTo k (evictOldest conversation)

theorem trackedAt_spec {k : ℕ} (hk : k ≤ inlineImageCount conversation)
    (hclean : CleanImages conversation) (hcovered : removableTotal conversation ≤ running) :
    trackedAt k conversation running + jsonBytes serializer conversation +
        hiddenUpTo k conversation =
      running + jsonBytes serializer (evictOldest^[k] conversation) +
        droppedUpTo k conversation := by
  induction k generalizing conversation running with
  | zero => rfl
  | succ k ih =>
    have hany := (inlineImageCount_pos_iff conversation).mp (by omega)
    have hcount := inlineImageCount_evictOldest hany
    obtain ⟨hstep, hleft⟩ := @trackOldest_spec serializer _ _ hany hclean hcovered
    have hrest := ih (by omega) hclean.evictOldest hleft
    rw [trackedAt, hiddenUpTo, droppedUpTo, Function.iterate_succ_apply]
    omega

theorem inlineImageCount_iterate {k : ℕ} (hk : k ≤ inlineImageCount conversation) :
    inlineImageCount (evictOldest^[k] conversation) + k = inlineImageCount conversation := by
  induction k generalizing conversation with
  | zero => rfl
  | succ k ih =>
    have hany := (inlineImageCount_pos_iff conversation).mp (by omega)
    have hcount := inlineImageCount_evictOldest hany
    have hrest := @ih (evictOldest conversation) (by omega)
    rw [Function.iterate_succ_apply]
    omega

theorem CleanImages.iterate (h : CleanImages conversation) (k : ℕ) :
    CleanImages (Chat.evictOldest^[k] conversation) := by
  induction k generalizing conversation with
  | zero => exact h
  | succ k ih => exact ih h.evictOldest

theorem filter_bytes_le (parts : List ContentPart) :
    ((parts.filter ContentPart.isImage).map fun p => utf8Len (jsonPart p)).sum ≤
      partsBytes parts := by
  have hsum : ((parts.filter ContentPart.isImage).map fun p => utf8Len (jsonPart p)).sum ≤
      (parts.map fun p => utf8Len (jsonPart p)).sum := by
    induction parts with
    | nil => exact Nat.le_refl _
    | cons part parts ih =>
      rw [List.filter_cons]
      split_ifs
      · exact Nat.add_le_add_left ih _
      · exact Nat.le_trans ih (Nat.le_add_left _ _)
  exact Nat.le_trans hsum (Nat.le_add_right _ _)

theorem removableBytes_le (serializer : ItemSerializer) (item : ConversationItem) :
    removableBytes item ≤ utf8Len (jsonItem serializer item) := by
  cases item with
  | user u =>
    have hparts := filter_bytes_le u.content
    rw [removableBytes, jsonItem]
    simp only [utf8Len_append, utf8Len_jsonParts]
    omega
  | toolResult r =>
    have hempty : partsBytes [] = 0 := rfl
    rw [removableBytes, jsonItem]
    simp only [utf8Len_append, utf8Len_jsonImages]
    split_ifs with hnil
    · rw [hnil, hempty]
      exact Nat.zero_le _
    · omega
  | _ => exact Nat.zero_le _

/-- At first everything that is subtracted later is there. -/
theorem removableTotal_le (serializer : ItemSerializer) (items : List ConversationItem) :
    removableTotal items ≤ jsonBytes serializer items := by
  have hsum : removableTotal items ≤
      (items.map fun item => utf8Len (jsonItem serializer item)).sum :=
    (sum_map_le fun item _ => removableBytes_le serializer item).1
  rw [jsonBytes_eq, joinedBytes]
  omega

/-! ## The target -/

/-- The size that the loop sees after some of the evictions. -/
def trackedBytes (serializer : ItemSerializer) (items : List ConversationItem) (k : ℕ) : ℕ :=
  jsonBytes serializer (evictOldest^[k] items) + droppedUpTo k items - hiddenUpTo k items

theorem trackedAt_eq {k : ℕ} (hk : k ≤ inlineImageCount items) (hclean : CleanImages items) :
    trackedAt k items (jsonBytes serializer items) = trackedBytes serializer items k := by
  have hspec := @trackedAt_spec serializer _ _ _ hk hclean (removableTotal_le serializer items)
  unfold trackedBytes
  omega

/-- The first tracked size within the target is that of a conversation within it. -/
def StopsInTime (serializer : ItemSerializer) (items : List ConversationItem) (target : ℕ) : Prop :=
  ∀ k < inlineImageCount items, (∀ j < k, target < trackedBytes serializer items j) →
    trackedBytes serializer items k ≤ target →
      jsonBytes serializer (evictOldest^[k] items) ≤ target

/-- What the budget is to do. -/
structure MeetsImageBudget (serializer : ItemSerializer) (items : List ConversationItem)
    (trigger target : ℕ) (budgeted : BudgetedConversation) : Prop where
  bodyBytes : budgeted.outcome.bodyBytes = jsonBytes serializer items
  bodyBytesAfter : budgeted.outcome.bodyBytesAfter = jsonBytes serializer budgeted.items
  evicted_le : budgeted.outcome.evicted ≤ inlineImageCount items
  oldest : budgeted.items = evictOldest^[budgeted.outcome.evicted] items
  reclaims : budgeted.outcome.needsImageCompaction = true → target < budgeted.outcome.bodyBytes →
    jsonBytes serializer budgeted.items ≤ target ∨ inlineImageCount budgeted.items = 0

theorem applyImageBudget_of_fires (htrigger : trigger ≤ conversationBodyBytes serializer items)
    (hover : target < conversationBodyBytes serializer items) {evictedItems : List ConversationItem}
    {evicted : ℕ} (hloop : evictImagesToBudget items (conversationBodyBytes serializer items) target =
      (evictedItems, evicted)) :
    applyImageBudgetWithLimits serializer items trigger target =
      ⟨evictedItems, ⟨conversationBodyBytes serializer items, if evicted = 0 then
        conversationBodyBytes serializer items else conversationBodyBytes serializer evictedItems,
        inlineImageCount items, true, evicted⟩⟩ := by
  unfold applyImageBudgetWithLimits
  dsimp only
  rw [hloop, decide_eq_true htrigger, decide_eq_true hover, Bool.and_self, if_pos rfl]

/-- The budget does what it is to do exactly if no URL with a base64 header has a tail that JSON
escapes and the loop does not stop on a size that hides what placeholders added. -/
theorem image_budget_iff (serializer : ItemSerializer) (items : List ConversationItem)
    (trigger target : ℕ) :
    MeetsImageBudget serializer items trigger target
        (applyImageBudgetWithLimits serializer items trigger target) ↔
      CleanImages items ∧ (trigger ≤ jsonBytes serializer items →
        target < jsonBytes serializer items → StopsInTime serializer items target) := by
  have hbody : (applyImageBudgetWithLimits serializer items trigger target).outcome.bodyBytes =
      conversationBodyBytes serializer items := rfl
  by_cases hclean : CleanImages items
  swap
  · refine iff_of_false (fun h => hclean ?_) (fun h => hclean h.1)
    exact (conversationBodyBytes_eq_iff serializer items).mp (hbody ▸ h.bodyBytes)
  rw [and_iff_right hclean]
  have hexact := (conversationBodyBytes_eq_iff serializer items).mpr hclean
  obtain ⟨k, hk, hloop, habove, hwithin⟩ :=
    evictLoop_spec target items (jsonBytes serializer items)
  have hcount := inlineImageCount_iterate hk
  have hafter := (conversationBodyBytes_eq_iff serializer _).mpr (hclean.iterate k)
  by_cases hfires : trigger ≤ jsonBytes serializer items ∧ target < jsonBytes serializer items
  · have hresult : applyImageBudgetWithLimits serializer items trigger target =
        ⟨evictOldest^[k] items, ⟨jsonBytes serializer items, if k = 0 then
          jsonBytes serializer items else jsonBytes serializer (evictOldest^[k] items),
          inlineImageCount items, true, k⟩⟩ := by
      rw [← hexact] at hfires hloop
      rw [applyImageBudget_of_fires hfires.1 hfires.2 hloop, hexact, hafter]
    rw [hresult]
    constructor
    · intro h _ _ k' hk' habove' hwithin'
      have hsame : k' = k := by
        obtain hlt | heq | hlt := Nat.lt_trichotomy k' k
        · have := habove k' hlt
          rw [trackedAt_eq hk'.le hclean] at this
          omega
        · exact heq
        · have := habove' k hlt
          rw [← trackedAt_eq hk hclean] at this
          have := hwithin (by omega)
          omega
      obtain hle | hnone := h.reclaims rfl hfires.2
      · rw [hsame]
        exact hle
      · dsimp only at hnone
        omega
    · intro h
      refine ⟨rfl, ?_, hk, rfl, fun _ _ => ?_⟩
      · dsimp only
        split_ifs with hzero
        · rw [hzero]
          rfl
        · rfl
      · by_cases hlt : k < inlineImageCount items
        · left
          refine h hfires.1 hfires.2 k hlt (fun j hj => ?_) ?_
          · rw [← trackedAt_eq (by omega) hclean]
            exact habove j hj
          · rw [← trackedAt_eq hk hclean]
            exact hwithin hlt
        · right
          dsimp only
          omega
  · have hresult : applyImageBudgetWithLimits serializer items trigger target =
        ⟨items, ⟨jsonBytes serializer items, jsonBytes serializer items, inlineImageCount items,
          decide (trigger ≤ jsonBytes serializer items), 0⟩⟩ := by
      unfold applyImageBudgetWithLimits
      dsimp only
      rw [hexact, ← Bool.decide_and, decide_eq_false hfires]
      rfl
    rw [hresult]
    refine iff_of_true ⟨rfl, rfl, Nat.zero_le _, rfl, fun hneeds hover => ?_⟩ ?_
    · exact absurd ⟨of_decide_eq_true hneeds, hover⟩ hfires
    · exact fun htrigger hover => absurd ⟨htrigger, hover⟩ hfires

/-! ## A linked image -/

set_option maxRecDepth 8000 in
theorem placeholderBytes_eq : placeholderBytes = 238 := by
  have hchars : imageCompactPlaceholder = _ := String.toList_ofList
  rw [placeholderBytes, placeholderPart, hchars]
  decide +kernel

theorem trackUser_eq (imageBytes running : ℕ) :
    trackUser imageBytes running = running - (imageBytes - 238) := by
  rw [trackUser, placeholderBytes_eq]

/-- One round of the loop on an image of a user item. -/
theorem evictLoop_user {item part imageBytes left : ℕ} {u : UserItem}
    (images : List (ImageLocation × ℕ)) (hover : target < running)
    (hitem : conversation[item]? = some (.user u))
    (htrack : trackUser imageBytes running = left) :
    evictLoop target ((.user item part, imageBytes) :: images) conversation running =
      ((evictLoop target images (conversation.set item
          (.user { u with content := u.content.set part placeholderPart })) left).1,
        (evictLoop target images (conversation.set item
          (.user { u with content := u.content.set part placeholderPart })) left).2 + 1) := by
  rw [evictLoop, if_neg (Nat.not_le.mpr hover), evictAt, hitem]
  dsimp only
  rw [htrack]

/-- A serializer that skips the fields which are not set. -/
def bareSerializer : ItemSerializer := ⟨fun _ => [], fun _ _ _ => []⟩

def attachedUrl : Str := "data:image/png;base64,".toList ++ List.replicate 220 'A'

def linkedImages : List ConversationItem :=
  [.user ⟨[.image "a.png".toList, .image attachedUrl, .image "b.png".toList], none, none, none⟩]

theorem two_parts_le (serializer : ItemSerializer) (placeholder part : ContentPart) :
    utf8Len (jsonPart placeholder) + utf8Len (jsonPart placeholder) ≤
      jsonBytes serializer [.user ⟨[placeholder, placeholder, part], none, none, none⟩] := by
  rw [jsonBytes_eq, joinedBytes]
  simp only [List.map_cons, List.map_nil, List.sum_cons, jsonItem, utf8Len_append,
    utf8Len_jsonList, joinedBytes]
  omega

/-- The placeholder of the first image is larger than the image, and the loop stops on the size
without it. -/
theorem linked_image_stops_early :
    ¬ ∀ (serializer : ItemSerializer) (items : List ConversationItem) (trigger target : ℕ),
      MeetsImageBudget serializer items trigger target
        (applyImageBudgetWithLimits serializer items trigger target) := by
  intro h
  have hmeets := h bareSerializer linkedImages 0 355
  have hbytes : conversationBodyBytes bareSerializer linkedImages = 359 := by decide +kernel
  have himages : discoverImages linkedImages =
      [(.user 0 0, 30), (.user 0 1, 267), (.user 0 2, 30)] := by decide +kernel
  have hloop : evictImagesToBudget linkedImages 359 355 =
      ([.user ⟨[placeholderPart, placeholderPart, .image "b.png".toList], none, none, none⟩],
        2) := by
    rw [evictImagesToBudget, himages, evictLoop_user _ (by decide) rfl (trackUser_eq 30 359),
      evictLoop_user _ (by decide) rfl (trackUser_eq 267 _)]
    rfl
  have hover : 355 < conversationBodyBytes bareSerializer linkedImages := by
    rw [hbytes]
    decide
  rw [← hbytes] at hloop
  rw [applyImageBudget_of_fires (Nat.zero_le _) hover hloop] at hmeets
  obtain hle | hnone := hmeets.reclaims rfl hover
  · have hparts := two_parts_le bareSerializer placeholderPart (.image "b.png".toList)
    have hplaceholder : utf8Len (jsonPart placeholderPart) = 238 := placeholderBytes_eq
    rw [hplaceholder] at hparts
    exact absurd (Nat.le_trans hparts hle) (by decide)
  · exact absurd hnone (by decide)

end GrokBuild.Chat
