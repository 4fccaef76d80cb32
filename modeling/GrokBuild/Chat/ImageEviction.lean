import GrokBuild.Chat.ImageBudget
import Mathlib.Logic.Function.Iterate

/-!
# What eviction does to the size

Each step of the loop evicts the oldest image that is left. The tracked size differs from the real
one by what placeholders added unseen and by the image fields that went with their last image.
-/

namespace GrokBuild.Chat

open Text

variable {conversation front back : List ConversationItem} {item : ConversationItem}
  {parts frontParts backParts : List ContentPart} {part : ContentPart} {running target : ℕ}

/-! ## The oldest image -/

/-- The first image becomes the placeholder. -/
def replaceFirstImage : List ContentPart → List ContentPart
  | [] => []
  | part :: parts =>
    if part.isImage then placeholderPart :: parts else part :: replaceFirstImage parts

def evictFromItem : ConversationItem → ConversationItem
  | .user u => .user { u with content := replaceFirstImage u.content }
  | .toolResult r => .toolResult (evictFromResult r)
  | item => item

def hasImage (item : ConversationItem) : Bool := (itemParts item).any ContentPart.isImage

def evictOldest : List ConversationItem → List ConversationItem
  | [] => []
  | item :: items => if hasImage item then evictFromItem item :: items else item :: evictOldest items

/-- The first of the images, which an item with images has. -/
def firstImageBytes (item : ConversationItem) : ℕ :=
  ((itemParts item).find? ContentPart.isImage).elim 0 imagePartBytes

def trackItem (running : ℕ) : ConversationItem → ℕ
  | .user u => trackUser (firstImageBytes (.user u)) running
  | .toolResult r => trackResult r (firstImageBytes (.toolResult r)) running
  | _ => running

def trackOldest (conversation : List ConversationItem) (running : ℕ) : ℕ :=
  (conversation.find? hasImage).elim running (trackItem running)

theorem any_split (h : parts.any ContentPart.isImage = true) :
    ∃ front part back, parts = front ++ part :: back ∧
      front.any ContentPart.isImage = false ∧ part.isImage = true := by
  induction parts with
  | nil => cases h
  | cons part parts ih =>
    by_cases hpart : part.isImage = true
    · exact ⟨[], part, parts, rfl, rfl, hpart⟩
    · rw [List.any_cons, Bool.of_not_eq_true hpart, Bool.false_or] at h
      obtain ⟨front, image, back, rfl, hfront, himage⟩ := ih h
      refine ⟨part :: front, image, back, rfl, ?_, himage⟩
      rw [List.any_cons, Bool.of_not_eq_true hpart, hfront, Bool.false_or]

theorem replaceFirstImage_append (hfront : frontParts.any ContentPart.isImage = false)
    (hpart : part.isImage = true) :
    replaceFirstImage (frontParts ++ part :: backParts) =
      frontParts ++ placeholderPart :: backParts := by
  induction frontParts with
  | nil => rw [List.nil_append, replaceFirstImage, if_pos hpart, List.nil_append]
  | cons first frontParts ih =>
    rw [List.any_cons, Bool.or_eq_false_iff] at hfront
    rw [List.cons_append, replaceFirstImage, hfront.1, if_neg Bool.false_ne_true, ih hfront.2,
      List.cons_append]

theorem eraseP_append_image (hfront : frontParts.any ContentPart.isImage = false)
    (hpart : part.isImage = true) :
    (frontParts ++ part :: backParts).eraseP ContentPart.isImage = frontParts ++ backParts := by
  rw [List.eraseP_append_right _ (List.any_eq_false.mp hfront), List.eraseP_cons_of_pos hpart]

theorem find?_append_image (hfront : frontParts.any ContentPart.isImage = false)
    (hpart : part.isImage = true) :
    (frontParts ++ part :: backParts).find? ContentPart.isImage = some part := by
  have hnone : frontParts.find? ContentPart.isImage = none :=
    List.find?_eq_none.mpr (List.any_eq_false.mp hfront)
  rw [List.find?_append, hnone, Option.none_or, List.find?_cons_of_pos hpart]

theorem conversation_split (h : conversation.any hasImage = true) :
    ∃ front item back, conversation = front ++ item :: back ∧ front.any hasImage = false ∧
      hasImage item = true := by
  induction conversation with
  | nil => cases h
  | cons item conversation ih =>
    by_cases hitem : hasImage item = true
    · exact ⟨[], item, conversation, rfl, rfl, hitem⟩
    · rw [List.any_cons, Bool.of_not_eq_true hitem, Bool.false_or] at h
      obtain ⟨front, first, back, rfl, hfront, hfirst⟩ := ih h
      refine ⟨item :: front, first, back, rfl, ?_, hfirst⟩
      rw [List.any_cons, Bool.of_not_eq_true hitem, hfront, Bool.false_or]

theorem evictOldest_append (hfront : front.any hasImage = false) (hitem : hasImage item = true) :
    evictOldest (front ++ item :: back) = front ++ evictFromItem item :: back := by
  induction front with
  | nil => rw [List.nil_append, evictOldest, if_pos hitem, List.nil_append]
  | cons first front ih =>
    rw [List.any_cons, Bool.or_eq_false_iff] at hfront
    rw [List.cons_append, evictOldest, hfront.1, if_neg Bool.false_ne_true, ih hfront.2,
      List.cons_append]

theorem trackOldest_append (hfront : front.any hasImage = false) (hitem : hasImage item = true) :
    trackOldest (front ++ item :: back) running = trackItem running item := by
  have hnone : front.find? hasImage = none :=
    List.find?_eq_none.mpr (List.any_eq_false.mp hfront)
  rw [trackOldest, List.find?_append, hnone, Option.none_or, List.find?_cons_of_pos hitem]
  rfl

/-! ## The loop -/

/-- An image at a position of the content. -/
def userImage (i : ℕ) : ContentPart × ℕ → Option (ImageLocation × ℕ)
  | (part, j) => if part.isImage then some (.user i j, imagePartBytes part) else none

theorem userImages_eq (i : ℕ) (content : List ContentPart) :
    userImages i content = content.zipIdx.filterMap (userImage i) := rfl

theorem userImages_none (i n : ℕ) (h : parts.any ContentPart.isImage = false) :
    (parts.zipIdx n).filterMap (userImage i) = [] := by
  rw [List.filterMap_eq_nil_iff]
  rintro ⟨part, j⟩ hmem
  exact if_neg (List.any_eq_false.mp h part (List.fst_mem_of_mem_zipIdx hmem))

theorem userImages_append (i : ℕ) (hfront : frontParts.any ContentPart.isImage = false)
    (hpart : part.isImage = true) :
    userImages i (frontParts ++ part :: backParts) =
      (.user i frontParts.length, imagePartBytes part) ::
        userImages i (frontParts ++ placeholderPart :: backParts) := by
  have hrest : ∀ p : ContentPart, userImages i (frontParts ++ p :: backParts) =
      (userImage i (p, frontParts.length)).toList ++
        (backParts.zipIdx (frontParts.length + 1)).filterMap (userImage i) := by
    intro p
    rw [userImages_eq, List.zipIdx_append, List.filterMap_append, userImages_none i 0 hfront,
      List.nil_append, List.zipIdx_cons, Nat.zero_add, List.filterMap_cons]
    cases userImage i (p, frontParts.length) <;> rfl
  rw [hrest, hrest, userImage, if_pos hpart]
  rfl

theorem resultImages_append (i : ℕ) (hfront : frontParts.any ContentPart.isImage = false)
    (hpart : part.isImage = true) :
    resultImages i (frontParts ++ part :: backParts) =
      (.toolResult i, imagePartBytes part) :: resultImages i (frontParts ++ backParts) := by
  have hnone : resultImages i frontParts = [] := by
    refine List.filterMap_eq_nil_iff.mpr fun p hp => ?_
    rw [if_neg (List.any_eq_false.mp hfront p hp)]
  have happend : ∀ more, resultImages i (frontParts ++ more) = resultImages i more := by
    intro more
    rw [resultImages, List.filterMap_append]
    exact (congrArg (· ++ _) hnone).trans (List.nil_append _)
  rw [happend, happend, resultImages, List.filterMap_cons, if_pos hpart]
  rfl

theorem itemImages_of_not (h : hasImage item = false) (i : ℕ) : itemImages (item, i) = [] := by
  cases item with
  | user u => exact userImages_none i 0 h
  | toolResult r =>
    refine List.filterMap_eq_nil_iff.mpr fun p hp => ?_
    rw [if_neg (List.any_eq_false.mp h p hp)]
  | _ => rfl

/-- The first location of the item is that of its first image. -/
theorem itemImages_cons (h : hasImage item = true) (i : ℕ) :
    ∃ location, itemImages (item, i) =
        (location, firstImageBytes item) :: itemImages (evictFromItem item, i) ∧
      ∀ front back running, front.length = i →
        evictAt (front ++ item :: back) running (firstImageBytes item) location =
          (front ++ evictFromItem item :: back, trackItem running item) := by
  cases item with
  | user u =>
    obtain ⟨frontParts, part, backParts, hcontent, hfront, hpart⟩ := any_split h
    have hcontent : u.content = frontParts ++ part :: backParts := hcontent
    have hbytes : firstImageBytes (.user u) = imagePartBytes part := by
      rw [firstImageBytes, itemParts, hcontent, find?_append_image hfront hpart]
      rfl
    refine ⟨.user i frontParts.length, ?_, fun front back running hi => ?_⟩
    · rw [hbytes, evictFromItem, itemImages, itemImages, hcontent, userImages_append i hfront hpart,
        replaceFirstImage_append hfront hpart]
    · have hget : (front ++ ConversationItem.user u :: back)[i]? = some (.user u) := by
        rw [← hi, List.getElem?_append_right (Nat.le_refl _), Nat.sub_self]
        rfl
      have hset : u.content.set frontParts.length placeholderPart =
          replaceFirstImage u.content := by
        rw [hcontent, replaceFirstImage_append hfront hpart, List.set_append_right _ _ (Nat.le_refl _),
          Nat.sub_self]
        rfl
      rw [evictAt, hget]
      dsimp only
      rw [hset, ← hi, List.set_append_right _ _ (Nat.le_refl _), Nat.sub_self]
      rfl
  | toolResult r =>
    obtain ⟨frontParts, part, backParts, himages, hfront, hpart⟩ := any_split h
    have himages : r.images = frontParts ++ part :: backParts := himages
    have hbytes : firstImageBytes (.toolResult r) = imagePartBytes part := by
      rw [firstImageBytes, itemParts, himages, find?_append_image hfront hpart]
      rfl
    refine ⟨.toolResult i, ?_, fun front back running hi => ?_⟩
    · rw [hbytes, evictFromItem, itemImages, itemImages, evictFromResult, himages,
        resultImages_append i hfront hpart, eraseP_append_image hfront hpart]
    · have hget : (front ++ ConversationItem.toolResult r :: back)[i]? = some (.toolResult r) := by
        rw [← hi, List.getElem?_append_right (Nat.le_refl _), Nat.sub_self]
        rfl
      rw [evictAt, hget]
      dsimp only
      rw [← hi, List.set_append_right _ _ (Nat.le_refl _), Nat.sub_self]
      rfl
  | _ => cases h

theorem discoverImages_none (n : ℕ) (h : front.any hasImage = false) :
    (front.zipIdx n).flatMap itemImages = [] := by
  rw [List.flatMap_eq_nil_iff]
  rintro ⟨item, i⟩ hmem
  refine itemImages_of_not (Bool.of_not_eq_true ?_) i
  exact List.any_eq_false.mp h item (List.fst_mem_of_mem_zipIdx hmem)

/-- The first location is that of the oldest image, and the others are those that are left. -/
theorem discoverImages_cons (h : conversation.any hasImage = true) :
    ∃ location imageBytes, discoverImages conversation =
        (location, imageBytes) :: discoverImages (evictOldest conversation) ∧
      ∀ running, evictAt conversation running imageBytes location =
        (evictOldest conversation, trackOldest conversation running) := by
  obtain ⟨front, item, back, rfl, hfront, hitem⟩ := conversation_split h
  obtain ⟨location, himages, hevict⟩ := itemImages_cons hitem front.length
  have hdiscover : ∀ x : ConversationItem, discoverImages (front ++ x :: back) =
      itemImages (x, front.length) ++ (back.zipIdx (front.length + 1)).flatMap itemImages := by
    intro x
    rw [discoverImages, List.zipIdx_append, List.flatMap_append, discoverImages_none 0 hfront,
      List.nil_append, List.zipIdx_cons, Nat.zero_add, List.flatMap_cons]
  refine ⟨location, firstImageBytes item, ?_, fun running => ?_⟩
  · rw [evictOldest_append hfront hitem, hdiscover, hdiscover, himages, List.cons_append]
  · rw [evictOldest_append hfront hitem, trackOldest_append hfront hitem]
    exact hevict front back running rfl

theorem countP_replaceFirstImage (h : parts.any ContentPart.isImage = true) :
    (replaceFirstImage parts).countP ContentPart.isImage + 1 =
      parts.countP ContentPart.isImage := by
  obtain ⟨front, part, back, rfl, hfront, hpart⟩ := any_split h
  have hplaceholder : ¬ placeholderPart.isImage = true := Bool.false_ne_true
  rw [replaceFirstImage_append hfront hpart, List.countP_append, List.countP_append,
    List.countP_cons_of_pos hpart, List.countP_cons_of_neg hplaceholder]
  rfl

theorem countP_eraseP (h : parts.any ContentPart.isImage = true) :
    (parts.eraseP ContentPart.isImage).countP ContentPart.isImage + 1 =
      parts.countP ContentPart.isImage := by
  obtain ⟨front, part, back, rfl, hfront, hpart⟩ := any_split h
  rw [eraseP_append_image hfront hpart, List.countP_append, List.countP_append,
    List.countP_cons_of_pos hpart]
  rfl

theorem inlineImageCount_append (front back : List ConversationItem) :
    inlineImageCount (front ++ back) = inlineImageCount front + inlineImageCount back := by
  unfold inlineImageCount
  rw [List.map_append, List.sum_append]

theorem inlineImageCount_cons (item : ConversationItem) (items : List ConversationItem) :
    inlineImageCount (item :: items) =
      (itemParts item).countP ContentPart.isImage + inlineImageCount items := rfl

theorem countP_evictFromItem (h : hasImage item = true) :
    (itemParts (evictFromItem item)).countP ContentPart.isImage + 1 =
      (itemParts item).countP ContentPart.isImage := by
  cases item with
  | user u => exact countP_replaceFirstImage h
  | toolResult r => exact countP_eraseP h
  | _ => cases h

theorem inlineImageCount_evictOldest (h : conversation.any hasImage = true) :
    inlineImageCount (evictOldest conversation) + 1 = inlineImageCount conversation := by
  obtain ⟨front, item, back, rfl, hfront, hitem⟩ := conversation_split h
  have hcount := countP_evictFromItem hitem
  rw [evictOldest_append hfront hitem, inlineImageCount_append, inlineImageCount_append,
    inlineImageCount_cons, inlineImageCount_cons]
  omega

theorem inlineImageCount_pos_iff (conversation : List ConversationItem) :
    0 < inlineImageCount conversation ↔ conversation.any hasImage = true := by
  induction conversation with
  | nil => exact iff_of_false (Nat.lt_irrefl 0) Bool.false_ne_true
  | cons item items ih =>
    have hitem : 0 < (itemParts item).countP ContentPart.isImage ↔ hasImage item = true := by
      rw [List.countP_pos_iff, hasImage, List.any_eq_true]
    rw [inlineImageCount_cons, List.any_cons, Bool.or_eq_true, ← ih, ← hitem]
    omega

/-- The tracked size after some of the evictions. -/
def trackedAt : ℕ → List ConversationItem → ℕ → ℕ
  | 0, _, running => running
  | k + 1, conversation, running =>
    trackedAt k (evictOldest conversation) (trackOldest conversation running)

/-- The loop stops at the first tracked size within the target, or without images. -/
theorem evictLoop_spec (target : ℕ) (conversation : List ConversationItem) (running : ℕ) :
    ∃ k ≤ inlineImageCount conversation,
      evictLoop target (discoverImages conversation) conversation running =
        (evictOldest^[k] conversation, k) ∧
      (∀ j < k, target < trackedAt j conversation running) ∧
      (k < inlineImageCount conversation → trackedAt k conversation running ≤ target) := by
  generalize hn : inlineImageCount conversation = n
  induction n generalizing conversation running with
  | zero =>
    have hnone : conversation.any hasImage = false := by
      rw [Bool.eq_false_iff, ne_eq, ← inlineImageCount_pos_iff]
      omega
    rw [discoverImages, discoverImages_none 0 hnone]
    exact ⟨0, Nat.le_refl _, rfl, nofun, nofun⟩
  | succ n ih =>
    have hany := (inlineImageCount_pos_iff conversation).mp (by omega)
    have hcount := inlineImageCount_evictOldest hany
    obtain ⟨location, imageBytes, hdiscover, hevict⟩ := discoverImages_cons hany
    rw [hdiscover, evictLoop]
    split_ifs with hstop
    · exact ⟨0, Nat.zero_le _, rfl, nofun, fun _ => hstop⟩
    · obtain ⟨k, hk, hloop, habove, hwithin⟩ := ih (evictOldest conversation)
        (trackOldest conversation running) (by omega)
      refine ⟨k + 1, Nat.succ_le_succ hk, ?_, fun j hj => ?_, fun hlt => hwithin (by omega)⟩
      · rw [hevict]
        dsimp only
        rw [hloop]
        rfl
      · cases j with
        | zero => exact Nat.lt_of_not_le hstop
        | succ j => exact habove j (by omega)

end GrokBuild.Chat
