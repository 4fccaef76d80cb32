import Mathlib
import GrokBuild.Chat.ItemJson

/-!
# The image budget

From a trigger size on, the oldest images are evicted until the tracked size is within the target.
The size is tracked by deltas, which leave out that a placeholder can be larger than its image.
-/

namespace GrokBuild.Chat

open Text

def imageCompactPlaceholder : Str :=
  "[An earlier image was removed to keep the request within its size limit and is no longer visible. Do not describe or reason about its contents from memory; ask the user to re-share it if you need to see it again.]".toList

def toolImageCompactNote : Str :=
  "[One or more images from this tool result were removed to keep the request within its size limit and are no longer visible. Do not describe or reason about their contents from memory.]".toList

structure ImageBudgetOutcome where
  bodyBytes : ℕ
  bodyBytesAfter : ℕ
  inlineImages : ℕ
  needsImageCompaction : Bool
  evicted : ℕ

structure BudgetedConversation where
  items : List ConversationItem
  outcome : ImageBudgetOutcome

/-! ## Sizes -/

def ContentPart.isImage : ContentPart → Bool
  | .text _ => false
  | .image _ => true

/-- The parts of an item that can be images. -/
def itemParts : ConversationItem → List ContentPart
  | .user u => u.content
  | .toolResult r => r.images
  | _ => []

def inlineImageCount (conversation : List ConversationItem) : ℕ :=
  (conversation.map fun item => (itemParts item).countP ContentPart.isImage).sum

def isBase64Header (header : Str) : Bool :=
  startsWith header "data:".toList && endsWith header ";base64".toList

def encodedUrlBytes (url : Str) : ℕ :=
  match splitOnce [','] url with
  | none => utf8Len (jsonString url) - 2
  | some (header, base64Tail) =>
    if isBase64Header header then utf8Len (jsonString header) - 2 + 1 + utf8Len base64Tail
    else utf8Len (jsonString url) - 2

def imagePartFrameBytes : ℕ := utf8Len "\x7b\"type\":\"image\",\"url\":\"\"\x7d".toList

/-- Only images are discovered. -/
def imagePartBytes : ContentPart → ℕ
  | .image url => imagePartFrameBytes + encodedUrlBytes url
  | .text _ => 0

def blankPart : ContentPart → ContentPart
  | .image _ => .image []
  | .text t => .text t

def imageUrlBytes : ContentPart → ℕ
  | .image url => encodedUrlBytes url
  | .text _ => 0

def blankItem : ConversationItem → ConversationItem
  | .user u => .user { u with content := u.content.map blankPart }
  | .toolResult r => .toolResult { r with images := r.images.map blankPart }
  | item => item

def conversationBodyBytes (serializer : ItemSerializer) (conversation : List ConversationItem) : ℕ :=
  utf8Len (jsonItems serializer (conversation.map blankItem)) +
    (conversation.map fun item => ((itemParts item).map imageUrlBytes).sum).sum

/-! ## Eviction -/

inductive ImageLocation where
  | user (item part : ℕ)
  | toolResult (item : ℕ)
deriving DecidableEq

def userImages (item : ℕ) (content : List ContentPart) : List (ImageLocation × ℕ) :=
  content.zipIdx.filterMap fun (part, i) =>
    if part.isImage then some (.user item i, imagePartBytes part) else none

def resultImages (item : ℕ) (images : List ContentPart) : List (ImageLocation × ℕ) :=
  images.filterMap fun part =>
    if part.isImage then some (.toolResult item, imagePartBytes part) else none

def itemImages : ConversationItem × ℕ → List (ImageLocation × ℕ)
  | (.user u, i) => userImages i u.content
  | (.toolResult r, i) => resultImages i r.images
  | _ => []

def discoverImages (conversation : List ConversationItem) : List (ImageLocation × ℕ) :=
  conversation.zipIdx.flatMap itemImages

def placeholderPart : ContentPart := .text imageCompactPlaceholder

def placeholderBytes : ℕ := utf8Len (jsonPart placeholderPart)

def toolNoteSuffix : Str := '\n' :: '\n' :: toolImageCompactNote

def toolNoteBytes : ℕ := utf8Len (jsonString toolNoteSuffix) - 2

/-- The first image of the result goes, and the note is added once. -/
def evictFromResult (r : ToolResultItem) : ToolResultItem :=
  { r with
    images := r.images.eraseP ContentPart.isImage
    content := if toolImageCompactNote <:+: r.content then r.content
      else r.content ++ toolNoteSuffix }

/-- The tracked size after the eviction of an image of the result. -/
def trackResult (r : ToolResultItem) (imageBytes running : ℕ) : ℕ :=
  let images := r.images.eraseP ContentPart.isImage
  let running := running - (imageBytes + if images = [] then 0 else 1)
  if toolImageCompactNote <:+: r.content then running else running + toolNoteBytes

def trackUser (imageBytes running : ℕ) : ℕ := running - (imageBytes - placeholderBytes)

/-- A location keeps the kind of its item. -/
def evictAt (conversation : List ConversationItem) (running imageBytes : ℕ) :
    ImageLocation → List ConversationItem × ℕ
  | .user item part =>
    match conversation[item]? with
    | some (.user u) =>
      (conversation.set item (.user { u with content := u.content.set part placeholderPart }),
        trackUser imageBytes running)
    | _ => (conversation, running)
  | .toolResult item =>
    match conversation[item]? with
    | some (.toolResult r) =>
      (conversation.set item (.toolResult (evictFromResult r)), trackResult r imageBytes running)
    | _ => (conversation, running)

def evictLoop (targetBytes : ℕ) :
    List (ImageLocation × ℕ) → List ConversationItem → ℕ → List ConversationItem × ℕ
  | [], conversation, _ => (conversation, 0)
  | (location, imageBytes) :: images, conversation, running =>
    if running ≤ targetBytes then (conversation, 0)
    else
      let (conversation, running) := evictAt conversation running imageBytes location
      let (conversation, evicted) := evictLoop targetBytes images conversation running
      (conversation, evicted + 1)

def evictImagesToBudget (conversation : List ConversationItem) (currentBytes targetBytes : ℕ) :
    List ConversationItem × ℕ :=
  evictLoop targetBytes (discoverImages conversation) conversation currentBytes

def applyImageBudgetWithLimits (serializer : ItemSerializer) (items : List ConversationItem)
    (triggerBytes reclaimTargetBytes : ℕ) : BudgetedConversation :=
  let bodyBytes := conversationBodyBytes serializer items
  let needsImageCompaction := decide (triggerBytes ≤ bodyBytes)
  let (evictedItems, evicted) :=
    if needsImageCompaction && decide (reclaimTargetBytes < bodyBytes) then
      evictImagesToBudget items bodyBytes reclaimTargetBytes
    else (items, 0)
  let bodyBytesAfter :=
    if evicted = 0 then bodyBytes else conversationBodyBytes serializer evictedItems
  ⟨evictedItems, ⟨bodyBytes, bodyBytesAfter, inlineImageCount items, needsImageCompaction, evicted⟩⟩

end GrokBuild.Chat
