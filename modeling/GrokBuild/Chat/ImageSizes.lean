import Mathlib
import GrokBuild.Chat.ImageEviction
import GrokBuild.Text.Tags

/-!
# Exact sizes

The body size is exact where no base64 tail is escaped, and then the tracked size follows the real
one up to what placeholders and emptied image fields make of it.
-/

namespace GrokBuild.Chat

open Text

variable {serializer : ItemSerializer} {conversation items : List ConversationItem}
  {item : ConversationItem} {parts frontParts backParts : List ContentPart} {part : ContentPart}
  {running target : ℕ}

/-- The exact size of the conversation in JSON. -/
def jsonBytes (serializer : ItemSerializer) (items : List ConversationItem) : ℕ :=
  utf8Len (jsonItems serializer items)

/-! ## Image addresses -/

/-- Behind a base64 header nothing needs to be escaped. -/
def CleanUrl (url : Str) : Prop :=
  ∀ header base64Tail, splitOnce [','] url = some (header, base64Tail) →
    isBase64Header header = true → ∀ c ∈ base64Tail, ¬ NeedsEscape c

def CleanPart : ContentPart → Prop
  | .image url => CleanUrl url
  | .text _ => True

def CleanImages (conversation : List ConversationItem) : Prop :=
  ∀ item ∈ conversation, ∀ part ∈ itemParts item, CleanPart part

theorem utf8Len_jsonString_sub (s : Str) : utf8Len (jsonString s) - 2 = utf8Len (escaped s) := by
  rw [utf8Len_jsonString, Nat.add_sub_cancel]

theorem encodedUrlBytes_spec (url : Str) :
    encodedUrlBytes url ≤ utf8Len (escaped url) ∧
      (encodedUrlBytes url = utf8Len (escaped url) ↔ CleanUrl url) := by
  unfold encodedUrlBytes CleanUrl
  cases hsplit : splitOnce [','] url with
  | none =>
    dsimp only
    rw [utf8Len_jsonString_sub]
    exact ⟨Nat.le_refl _, iff_of_true rfl nofun⟩
  | some split =>
    obtain ⟨header, base64Tail⟩ := split
    dsimp only
    have hother : (∀ header' base64Tail', some (header, base64Tail) = some (header', base64Tail') →
        isBase64Header header' = true → ∀ c ∈ base64Tail', ¬ NeedsEscape c) ↔
        (isBase64Header header = true → ∀ c ∈ base64Tail, ¬ NeedsEscape c) := by
      constructor
      · exact fun h => h header base64Tail rfl
      · intro h header' base64Tail' heq
        cases heq
        exact h
    rw [hother]
    split_ifs with hheader
    · have hurl : url = header ++ ([','] ++ base64Tail) := eq_of_splitOnce hsplit
      have hcomma : utf8Len (escaped [',']) = 1 := by decide
      have hsize : utf8Len (escaped url) =
          utf8Len (escaped header) + 1 + utf8Len (escaped base64Tail) := by
        rw [hurl, escaped_append, escaped_append, utf8Len_append, utf8Len_append, hcomma,
          Nat.add_assoc]
      have hle := utf8Len_le_escaped base64Tail
      rw [utf8Len_jsonString_sub, hsize, ← utf8Len_escaped_eq_iff]
      refine ⟨by omega, fun h _ => by omega, fun h => ?_⟩
      have := h hheader
      omega
    · rw [utf8Len_jsonString_sub]
      exact ⟨Nat.le_refl _, iff_of_true rfl fun h => absurd h hheader⟩

/-- What the address of an image takes in JSON. -/
def urlBytes : ContentPart → ℕ
  | .image url => utf8Len (escaped url)
  | .text _ => 0

theorem imageUrlBytes_spec (part : ContentPart) :
    imageUrlBytes part ≤ urlBytes part ∧ (imageUrlBytes part = urlBytes part ↔ CleanPart part) := by
  cases part with
  | text t => exact ⟨Nat.le_refl _, iff_of_true rfl trivial⟩
  | image url => exact encodedUrlBytes_spec url

theorem utf8Len_objectClose : utf8Len objectClose = 1 := by decide

theorem utf8Len_imageOpen : utf8Len imageOpen = 22 := by decide +kernel

theorem imagePartFrameBytes_eq : imagePartFrameBytes = 25 := by decide +kernel

theorem utf8Len_jsonPart_image (url : Str) :
    utf8Len (jsonPart (.image url)) = imagePartFrameBytes + utf8Len (escaped url) := by
  rw [jsonPart, utf8Len_append, utf8Len_append, utf8Len_jsonString, utf8Len_imageOpen,
    utf8Len_objectClose, imagePartFrameBytes_eq]
  omega

theorem imagePartBytes_eq (hpart : part.isImage = true) (hclean : CleanPart part) :
    imagePartBytes part = utf8Len (jsonPart part) := by
  cases part with
  | text t => cases hpart
  | image url =>
    rw [utf8Len_jsonPart_image, imagePartBytes, (encodedUrlBytes_spec url).2.mpr hclean]

/-! ## The body size -/

theorem sum_map_le {α : Type} {f g : α → ℕ} {l : List α} (h : ∀ x ∈ l, f x ≤ g x) :
    (l.map f).sum ≤ (l.map g).sum ∧ ((l.map f).sum = (l.map g).sum ↔ ∀ x ∈ l, f x = g x) := by
  induction l with
  | nil => exact ⟨Nat.le_refl _, iff_of_true rfl nofun⟩
  | cons x l ih =>
    obtain ⟨hx, hl⟩ := List.forall_mem_cons.mp h
    obtain ⟨hle, hiff⟩ := ih hl
    rw [List.map_cons, List.map_cons, List.sum_cons, List.sum_cons, List.forall_mem_cons, ← hiff]
    omega

/-- Blanked parts are shorter by their addresses. -/
theorem joinedBytes_blank (parts : List ContentPart) :
    joinedBytes ((parts.map blankPart).map fun p => utf8Len (jsonPart p)) +
        (parts.map urlBytes).sum =
      joinedBytes (parts.map fun p => utf8Len (jsonPart p)) := by
  have hpart : ∀ p : ContentPart,
      utf8Len (jsonPart (blankPart p)) + urlBytes p = utf8Len (jsonPart p) := by
    intro p
    cases p with
    | text t => exact Nat.add_zero _
    | image url =>
      have hempty : utf8Len (escaped []) = 0 := rfl
      rw [utf8Len_jsonPart_image, blankPart, utf8Len_jsonPart_image, urlBytes, hempty]
      omega
  unfold joinedBytes
  simp only [List.length_map]
  have hsum : ((parts.map blankPart).map fun p => utf8Len (jsonPart p)).sum +
      (parts.map urlBytes).sum = (parts.map fun p => utf8Len (jsonPart p)).sum := by
    induction parts with
    | nil => rfl
    | cons p parts ih =>
      have := hpart p
      simp only [List.map_cons, List.sum_cons]
      omega
  omega

def partsBytes (parts : List ContentPart) : ℕ :=
  joinedBytes (parts.map fun p => utf8Len (jsonPart p))

theorem utf8Len_jsonParts (parts : List ContentPart) :
    utf8Len (jsonList (parts.map jsonPart)) = partsBytes parts + 2 := by
  rw [utf8Len_jsonList, List.map_map]
  rfl

theorem utf8Len_imagesOpen : utf8Len imagesOpen = 10 := by decide +kernel

/-- What the image field of a result takes. -/
theorem utf8Len_jsonImages (images : List ContentPart) :
    utf8Len (jsonImages images) = if images = [] then 0 else partsBytes images + 12 := by
  unfold jsonImages
  split_ifs
  · rfl
  · rw [utf8Len_append, utf8Len_imagesOpen, utf8Len_jsonParts]
    omega

theorem itemBytes_blank (serializer : ItemSerializer) (item : ConversationItem) :
    utf8Len (jsonItem serializer (blankItem item)) + ((itemParts item).map urlBytes).sum =
      utf8Len (jsonItem serializer item) := by
  cases item with
  | user u =>
    have hblank := joinedBytes_blank u.content
    have hblank : partsBytes (u.content.map blankPart) + (u.content.map urlBytes).sum =
      partsBytes u.content := hblank
    rw [blankItem, jsonItem, jsonItem, itemParts]
    simp only [utf8Len_append, utf8Len_jsonParts]
    omega
  | toolResult r =>
    have hblank : partsBytes (r.images.map blankPart) + (r.images.map urlBytes).sum =
      partsBytes r.images := joinedBytes_blank r.images
    rw [blankItem, jsonItem, jsonItem, itemParts]
    simp only [utf8Len_append, utf8Len_jsonImages, List.map_eq_nil_iff]
    split_ifs with hnil
    · rw [hnil]
      rfl
    · omega
  | _ => exact Nat.add_zero _

theorem jsonBytes_eq (serializer : ItemSerializer) (items : List ConversationItem) :
    jsonBytes serializer items =
      joinedBytes (items.map fun item => utf8Len (jsonItem serializer item)) + 2 := by
  unfold jsonBytes jsonItems
  rw [utf8Len_jsonList, List.map_map]
  rfl

theorem jsonBytes_blank (serializer : ItemSerializer) (items : List ConversationItem) :
    jsonBytes serializer (items.map blankItem) +
        (items.map fun item => ((itemParts item).map urlBytes).sum).sum =
      jsonBytes serializer items := by
  rw [jsonBytes_eq, jsonBytes_eq]
  unfold joinedBytes
  simp only [List.length_map]
  have hsum : ((items.map blankItem).map fun item => utf8Len (jsonItem serializer item)).sum +
      (items.map fun item => ((itemParts item).map urlBytes).sum).sum =
        (items.map fun item => utf8Len (jsonItem serializer item)).sum := by
    induction items with
    | nil => rfl
    | cons item items ih =>
      have := itemBytes_blank serializer item
      simp only [List.map_cons, List.sum_cons]
      omega
  omega

/-- The body size is exact where no base64 tail is escaped, and only there. -/
theorem conversationBodyBytes_eq_iff (serializer : ItemSerializer)
    (items : List ConversationItem) :
    conversationBodyBytes serializer items = jsonBytes serializer items ↔ CleanImages items := by
  have hitem : ∀ item : ConversationItem,
      ((itemParts item).map imageUrlBytes).sum ≤ ((itemParts item).map urlBytes).sum ∧
        (((itemParts item).map imageUrlBytes).sum = ((itemParts item).map urlBytes).sum ↔
          ∀ part ∈ itemParts item, CleanPart part) := by
    intro item
    obtain ⟨hle, hiff⟩ := sum_map_le (l := itemParts item) fun part _ => (imageUrlBytes_spec part).1
    exact ⟨hle, hiff.trans (forall₂_congr fun part _ => (imageUrlBytes_spec part).2)⟩
  obtain ⟨-, hiff⟩ := sum_map_le (l := items) fun item _ => (hitem item).1
  have hblank := jsonBytes_blank serializer items
  have hbody : conversationBodyBytes serializer items =
      jsonBytes serializer (items.map blankItem) +
        (items.map fun item => ((itemParts item).map imageUrlBytes).sum).sum := rfl
  rw [hbody, ← hblank, Nat.add_left_cancel_iff, hiff]
  exact forall₂_congr fun item _ => (hitem item).2

/-! ## One eviction -/

/-- What a larger placeholder adds unseen. -/
def hiddenBytes (item : ConversationItem) : ℕ :=
  match item with
  | .user u => placeholderBytes - firstImageBytes (.user u)
  | _ => 0

/-- What goes with the last part of an image field. -/
def droppedBytes (item : ConversationItem) : ℕ :=
  match item with
  | .toolResult r => if r.images.eraseP ContentPart.isImage = [] then 12 else 0
  | _ => 0

/-- What of an item can still be subtracted from the tracked size. -/
def removableBytes (item : ConversationItem) : ℕ :=
  match item with
  | .user u => ((u.content.filter ContentPart.isImage).map fun p => utf8Len (jsonPart p)).sum
  | .toolResult r => partsBytes r.images
  | _ => 0

theorem partsBytes_replace (front back : List ContentPart) (old new : ContentPart) :
    partsBytes (front ++ new :: back) + utf8Len (jsonPart old) =
      partsBytes (front ++ old :: back) + utf8Len (jsonPart new) := by
  unfold partsBytes
  rw [List.map_append, List.map_append, List.map_cons, List.map_cons]
  exact joinedBytes_replace _ _ _ _

theorem partsBytes_remove (front back : List ContentPart) (old : ContentPart) :
    partsBytes (front ++ back) + (utf8Len (jsonPart old) + if front ++ back = [] then 0 else 1) =
      partsBytes (front ++ old :: back) := by
  unfold partsBytes
  rw [List.map_append, List.map_append, List.map_cons, ← joinedBytes_remove]
  congr 3
  rw [← List.map_append, List.map_eq_nil_iff]

/-- `toolNoteBytes` over a variable: the kernel would compute the closed subtraction letter by
letter. -/
def suffixBytes (suffix : Str) (_ : suffix = toolNoteSuffix) : ℕ := utf8Len (jsonString suffix) - 2

theorem suffixBytes_eq (suffix : Str) (h : suffix = toolNoteSuffix) :
    suffixBytes suffix h = utf8Len (escaped suffix) := by
  rw [suffixBytes, utf8Len_jsonString_sub]

theorem toolNoteBytes_eq : toolNoteBytes = utf8Len (escaped toolNoteSuffix) := by
  have h : toolNoteBytes = suffixBytes toolNoteSuffix rfl := rfl
  rw [h, suffixBytes_eq]

/-- The tracked size of an item with an image follows the real one, and what is left to subtract
stays covered. -/
theorem trackItem_spec (h : hasImage item = true)
    (hclean : ∀ part ∈ itemParts item, CleanPart part)
    (hcovered : removableBytes item ≤ running) :
    trackItem running item + utf8Len (jsonItem serializer item) + hiddenBytes item =
        running + utf8Len (jsonItem serializer (evictFromItem item)) + droppedBytes item ∧
      removableBytes (evictFromItem item) + running ≤
        trackItem running item + removableBytes item := by
  cases item with
  | user u =>
    obtain ⟨front, part, back, hcontent, hfront, hpart⟩ := any_split h
    have hcontent : u.content = front ++ part :: back := hcontent
    have hpartClean : CleanPart part := hclean part (by
      rw [itemParts, hcontent]
      exact List.mem_append_right _ List.mem_cons_self)
    have hbytes : firstImageBytes (.user u) = utf8Len (jsonPart part) := by
      rw [firstImageBytes, itemParts, hcontent, find?_append_image hfront hpart]
      exact imagePartBytes_eq hpart hpartClean
    have hsize := partsBytes_replace front back part placeholderPart
    have hremovable : removableBytes (.user u) =
        utf8Len (jsonPart part) + removableBytes (evictFromItem (.user u)) := by
      have hnone : front.filter ContentPart.isImage = [] :=
        List.filter_eq_nil_iff.mpr (List.any_eq_false.mp hfront)
      have hplaceholder : ¬ placeholderPart.isImage = true := Bool.false_ne_true
      rw [evictFromItem, removableBytes, removableBytes, hcontent,
        replaceFirstImage_append hfront hpart, List.filter_append, List.filter_append, hnone,
        List.filter_cons_of_pos hpart, List.filter_cons_of_neg hplaceholder]
      rfl
    rw [hremovable] at hcovered
    have hevicted : evictFromItem (.user u) =
        .user { u with content := front ++ placeholderPart :: back } := by
      rw [evictFromItem, hcontent, replaceFirstImage_append hfront hpart]
    have hold : utf8Len (jsonItem serializer (.user u)) + utf8Len (jsonPart placeholderPart) =
        utf8Len (jsonItem serializer (evictFromItem (.user u))) + utf8Len (jsonPart part) := by
      rw [hevicted, jsonItem, jsonItem, hcontent]
      simp only [utf8Len_append, utf8Len_jsonParts]
      omega
    have hdropped : droppedBytes (.user u) = 0 := rfl
    rw [hremovable, trackItem, hiddenBytes, hdropped, hbytes, trackUser]
    rw [← placeholderBytes] at hold
    omega
  | toolResult r =>
    obtain ⟨front, part, back, himages, hfront, hpart⟩ := any_split h
    have himages : r.images = front ++ part :: back := himages
    have hpartClean : CleanPart part := hclean part (by
      rw [itemParts, himages]
      exact List.mem_append_right _ List.mem_cons_self)
    have hbytes : firstImageBytes (.toolResult r) = utf8Len (jsonPart part) := by
      rw [firstImageBytes, itemParts, himages, find?_append_image hfront hpart]
      exact imagePartBytes_eq hpart hpartClean
    have hleft : r.images.eraseP ContentPart.isImage = front ++ back := by
      rw [himages, eraseP_append_image hfront hpart]
    have hremove := partsBytes_remove front back part
    have hremovable : removableBytes (.toolResult r) = partsBytes (front ++ part :: back) := by
      rw [removableBytes, himages]
    have hremovable' : removableBytes (evictFromItem (.toolResult r)) =
        partsBytes (front ++ back) := by
      rw [evictFromItem, removableBytes, evictFromResult, hleft]
    have hne : front ++ part :: back ≠ [] :=
      List.append_ne_nil_of_right_ne_nil _ (List.cons_ne_nil _ _)
    have hcontent : utf8Len (jsonString (evictFromResult r).content) =
        utf8Len (jsonString r.content) +
          if toolImageCompactNote <:+: r.content then 0 else toolNoteBytes := by
      rw [evictFromResult]
      dsimp only
      split_ifs
      · rfl
      · rw [utf8Len_jsonString, utf8Len_jsonString, escaped_append, utf8Len_append,
          toolNoteBytes_eq]
        omega
    have hempty : partsBytes [] = 0 := rfl
    rw [hremovable] at hcovered
    have hhidden : hiddenBytes (.toolResult r) = 0 := rfl
    have hdropped : droppedBytes (.toolResult r) = if front ++ back = [] then 12 else 0 := by
      rw [droppedBytes, hleft]
    have htrack : trackItem running (.toolResult r) =
        running - (utf8Len (jsonPart part) + if front ++ back = [] then 0 else 1) +
          if toolImageCompactNote <:+: r.content then 0 else toolNoteBytes := by
      rw [trackItem, hbytes, trackResult, hleft]
      split_ifs <;> rfl
    have hjson : utf8Len (jsonItem serializer (.toolResult r)) +
        (if toolImageCompactNote <:+: r.content then 0 else toolNoteBytes) +
          utf8Len (jsonImages (front ++ back)) =
        utf8Len (jsonItem serializer (evictFromItem (.toolResult r))) +
          utf8Len (jsonImages (front ++ part :: back)) := by
      have himages' : (evictFromResult r).images = front ++ back := hleft
      have hid : (evictFromResult r).toolCallId = r.toolCallId := by rw [evictFromResult]
      simp only [evictFromItem, jsonItem, himages, himages', hid, utf8Len_append, hcontent]
      omega
    rw [utf8Len_jsonImages, utf8Len_jsonImages, if_neg hne] at hjson
    rw [hremovable, hremovable', hhidden, hdropped, htrack]
    split_ifs at hremove hjson ⊢ with hnil
    all_goals try rw [hnil, hempty] at hremove
    all_goals try rw [hnil, hempty]
    all_goals omega
  | _ => cases h

end GrokBuild.Chat
