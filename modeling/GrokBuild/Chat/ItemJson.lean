import Mathlib
import GrokBuild.Chat.Conversation
import GrokBuild.Text.ByteSlices

/-!
# The size of a conversation in JSON

Only strings, parts with their images and the items that hold parts are written out here; the other
items and fields are whatever the serializer makes of them.
-/

namespace GrokBuild.Chat

open Text

/-! ## Strings -/

/-- The characters that the serializer escapes. -/
def NeedsEscape (c : Char) : Prop := c = '"' ∨ c = '\\' ∨ c.toNat < 32

instance (c : Char) : Decidable (NeedsEscape c) := inferInstanceAs (Decidable (_ ∨ _ ∨ _))

/-- The short form of an escaped character, if it has one. -/
def shortEscape (c : Char) : Option Char :=
  if c = '"' then some '"'
  else if c = '\\' then some '\\'
  else if c = '\u0008' then some 'b'
  else if c = '\u000c' then some 'f'
  else if c = '\n' then some 'n'
  else if c = '\r' then some 'r'
  else if c = '\t' then some 't'
  else none

def escapeChar (c : Char) : Str :=
  if NeedsEscape c then
    match shortEscape c with
    | some short => ['\\', short]
    | none => ['\\', 'u', '0', '0', Nat.digitChar (c.toNat / 16), Nat.digitChar (c.toNat % 16)]
  else [c]

def escaped (s : Str) : Str := s.flatMap escapeChar

def jsonString (s : Str) : Str := '"' :: (escaped s ++ ['"'])

theorem utf8Size_of_needsEscape {c : Char} (h : NeedsEscape c) : c.utf8Size = 1 := by
  refine Char.utf8Size_eq_one_iff.mpr ?_
  rw [UInt32.le_iff_toNat_le]
  obtain rfl | rfl | h := h
  · decide
  · decide
  · exact Nat.le_trans (Nat.le_of_lt h) (by decide)

theorem utf8Len_escapeChar_le (c : Char) : c.utf8Size ≤ utf8Len (escapeChar c) := by
  unfold escapeChar
  split_ifs with h
  · rw [utf8Size_of_needsEscape h]
    split
    · exact Nat.le_add_right 1 _
    · exact Nat.le_add_right 1 _
  · exact Nat.le_refl _

theorem utf8Len_escapeChar_eq_iff (c : Char) :
    utf8Len (escapeChar c) = c.utf8Size ↔ ¬ NeedsEscape c := by
  unfold escapeChar
  split_ifs with h
  · refine iff_of_false ?_ (not_not_intro h)
    rw [utf8Size_of_needsEscape h]
    split
    · next short _ =>
      have hshort := Char.utf8Size_pos short
      rw [utf8Len_cons, utf8Len_cons]
      have hslash : '\\'.utf8Size = 1 := by decide
      omega
    · rw [utf8Len_cons, utf8Len_cons]
      have hslash : '\\'.utf8Size = 1 := by decide
      have hu : 'u'.utf8Size = 1 := by decide
      omega
  · exact iff_of_true (Nat.add_zero _) h

theorem escaped_append (s t : Str) : escaped (s ++ t) = escaped s ++ escaped t :=
  List.flatMap_append

theorem utf8Len_escaped_cons (c : Char) (s : Str) :
    utf8Len (escaped (c :: s)) = utf8Len (escapeChar c) + utf8Len (escaped s) := by
  rw [escaped, List.flatMap_cons, utf8Len_append]
  rfl

theorem utf8Len_le_escaped (s : Str) : utf8Len s ≤ utf8Len (escaped s) := by
  induction s with
  | nil => exact Nat.le_refl _
  | cons c s ih =>
    have hc := utf8Len_escapeChar_le c
    rw [utf8Len_escaped_cons, utf8Len_cons]
    omega

/-- A text is as long in JSON as it is exactly if nothing in it is escaped. -/
theorem utf8Len_escaped_eq_iff (s : Str) :
    utf8Len (escaped s) = utf8Len s ↔ ∀ c ∈ s, ¬ NeedsEscape c := by
  induction s with
  | nil => exact iff_of_true rfl nofun
  | cons c s ih =>
    have hc := utf8Len_escapeChar_le c
    have hs := utf8Len_le_escaped s
    rw [utf8Len_escaped_cons, utf8Len_cons, List.forall_mem_cons, ← ih,
      ← utf8Len_escapeChar_eq_iff]
    omega

theorem utf8Len_jsonString (s : Str) : utf8Len (jsonString s) = utf8Len (escaped s) + 2 := by
  have hquote : '"'.utf8Size = 1 := by decide
  rw [jsonString, utf8Len_cons, utf8Len_append, utf8Len_cons, hquote, utf8Len_nil]
  omega

/-! ## Lists -/

def jsonList (pieces : List Str) : Str := '[' :: ([','].intercalate pieces ++ [']'])

/-- The size of pieces with commas between them. -/
def joinedBytes (sizes : List ℕ) : ℕ := sizes.sum + (sizes.length - 1)

theorem utf8Len_intercalate (pieces : List Str) :
    utf8Len ([','].intercalate pieces) = joinedBytes (pieces.map utf8Len) := by
  unfold joinedBytes
  rw [List.length_map]
  induction pieces with
  | nil => rfl
  | cons piece pieces ih =>
    cases pieces with
    | nil =>
      have hone : [','].intercalate [piece] = piece := List.append_nil _
      rw [hone]
      rfl
    | cons next pieces =>
      have hcomma : utf8Len [','] = 1 := by decide
      rw [List.intercalate_cons_of_ne_nil (List.cons_ne_nil _ _), utf8Len_append, utf8Len_append,
        ih, hcomma]
      simp only [List.map_cons, List.sum_cons, List.length_cons]
      omega

theorem utf8Len_jsonList (pieces : List Str) :
    utf8Len (jsonList pieces) = joinedBytes (pieces.map utf8Len) + 2 := by
  have hopen : '['.utf8Size = 1 := by decide
  have hclose : ']'.utf8Size = 1 := by decide
  rw [jsonList, utf8Len_cons, utf8Len_append, utf8Len_cons, utf8Len_intercalate, hopen, hclose,
    utf8Len_nil]
  omega

/-- Another piece in the place of one changes the size by the difference. -/
theorem joinedBytes_replace (front back : List ℕ) (old new : ℕ) :
    joinedBytes (front ++ new :: back) + old = joinedBytes (front ++ old :: back) + new := by
  unfold joinedBytes
  simp only [List.sum_append, List.sum_cons, List.length_append, List.length_cons]
  omega

/-- A removed piece takes a comma along if another is left. -/
theorem joinedBytes_remove (front back : List ℕ) (old : ℕ) :
    joinedBytes (front ++ back) + (old + if front ++ back = [] then 0 else 1) =
      joinedBytes (front ++ old :: back) := by
  unfold joinedBytes
  simp only [List.sum_append, List.sum_cons, List.length_append, List.length_cons]
  split_ifs with hnil
  · obtain ⟨rfl, rfl⟩ := List.append_eq_nil_iff.mp hnil
    simp only [List.sum_nil, List.length_nil]
    omega
  · have hpos := List.length_pos_of_ne_nil hnil
    rw [List.length_append] at hpos
    omega

/-! ## Items -/

/-- The items without parts, and the fields of a user item behind its content. -/
structure ItemSerializer where
  plain : ConversationItem → Str
  userFields : Option SyntheticReason → Option ℕ → Option ℕ → Str

def textOpen : Str := "\x7b\"type\":\"text\",\"text\":".toList

def imageOpen : Str := "\x7b\"type\":\"image\",\"url\":".toList

def objectClose : Str := ['\u007d']

def jsonPart : ContentPart → Str
  | .text t => textOpen ++ (jsonString t ++ objectClose)
  | .image url => imageOpen ++ (jsonString url ++ objectClose)

def imagesOpen : Str := ",\"images\":".toList

/-- The field is skipped without images. -/
def jsonImages (images : List ContentPart) : Str :=
  if images = [] then [] else imagesOpen ++ jsonList (images.map jsonPart)

def userOpen : Str := "\x7b\"type\":\"user\",\"content\":".toList

def resultOpen : Str := "\x7b\"type\":\"tool_result\",\"tool_call_id\":".toList

def contentOpen : Str := ",\"content\":".toList

def jsonItem (serializer : ItemSerializer) : ConversationItem → Str
  | .user u =>
    userOpen ++ (jsonList (u.content.map jsonPart) ++
      (serializer.userFields u.syntheticReason u.cwdGeneration u.promptIndex ++ objectClose))
  | .toolResult r =>
    resultOpen ++ (jsonString r.toolCallId ++
      (contentOpen ++ (jsonString r.content ++ (jsonImages r.images ++ objectClose))))
  | item => serializer.plain item

def jsonItems (serializer : ItemSerializer) (items : List ConversationItem) : Str :=
  jsonList (items.map (jsonItem serializer))

end GrokBuild.Chat
