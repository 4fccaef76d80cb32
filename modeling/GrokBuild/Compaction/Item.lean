import Mathlib
import GrokBuild.Text.Slices

/-!
# Items of a conversation to compact

The compaction algorithms see a conversation as a list of items of any type, through the classes
below: what they read of an item, and how they rebuild one.
-/

namespace GrokBuild.Compaction
open Text

inductive CompactionRole where
  | system
  | developer
  | user
  | assistant
  | tool
deriving DecidableEq, Repr

structure CompactionFileRef where
  id : Str
  name : Str
deriving DecidableEq, Repr

class CompactionItem (T : Type) where
  role : T → CompactionRole
  text : T → Option Str
  hasToolRequests : T → Bool
  isCompactionSummary : T → Bool
  attachmentRefs : T → List CompactionFileRef

class CompactionItemBuilder (T : Type) extends CompactionItem T where
  compactionSummaryItem : Str → T
  stripToolContent : T → Option T
  truncatePayloadForCompaction : T → ℕ → T

def isToolResult {T : Type} [CompactionItem T] (item : T) : Bool :=
  CompactionItem.role item == .tool

/-- Items of a role and a text, of which a prefix is kept where they are shortened. -/
structure MockItem where
  itemRole : CompactionRole
  content : Str
  summary : Bool := false
deriving DecidableEq, Repr

instance : CompactionItemBuilder MockItem where
  role item := item.itemRole
  text item := some item.content
  hasToolRequests item := item.itemRole == .assistant
  isCompactionSummary item := item.summary
  attachmentRefs _ := []
  compactionSummaryItem text := ⟨.developer, text, true⟩
  stripToolContent item := some item
  truncatePayloadForCompaction item maxTokens :=
    { item with content := item.content.take (maxTokens * 4) }

/-- `u32::MAX`. -/
def u32Max : ℕ := 2 ^ 32 - 1

/-- `u32::saturating_add`. -/
def saturatingAdd (a b : ℕ) : ℕ := min (a + b) u32Max

/-- The sum of counts as the code takes it. -/
def sumCounts (counts : List ℕ) : ℕ := counts.foldl saturatingAdd 0

theorem foldl_saturatingAdd (counts : List ℕ) (init : ℕ) (h : init ≤ u32Max) :
    counts.foldl saturatingAdd init = min (init + counts.sum) u32Max := by
  induction counts generalizing init with
  | nil =>
    rw [List.foldl_nil, List.sum_nil, Nat.add_zero, Nat.min_eq_left h]
  | cons count counts ih =>
    have hstep : saturatingAdd init count ≤ u32Max := Nat.min_le_right ..
    rw [List.foldl_cons, ih _ hstep, saturatingAdd, List.sum_cons]
    omega

theorem sumCounts_eq (counts : List ℕ) : sumCounts counts = min counts.sum u32Max := by
  rw [sumCounts, foldl_saturatingAdd counts 0 (Nat.zero_le _), Nat.zero_add]

/-- Below the largest number nothing is saturated. -/
theorem sum_le_of_sumCounts {counts : List ℕ} {budget : ℕ} (h : sumCounts counts ≤ budget)
    (hbudget : budget < u32Max) : counts.sum ≤ budget := by
  rw [sumCounts_eq] at h
  omega

theorem sumCounts_le_of_sum {counts : List ℕ} {budget : ℕ} (h : counts.sum ≤ budget) :
    sumCounts counts ≤ budget := by
  rw [sumCounts_eq]
  omega

end GrokBuild.Compaction
