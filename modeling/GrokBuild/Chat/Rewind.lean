import GrokBuild.Chat.Actor
import Mathlib.Data.List.TakeDrop

/-!
# Rewinding to a prompt

The cut in front of a prompt turn is found by one of three scanners. They differ in which user
items they number, and which of them runs depends on the items in front of the first marker.
-/

namespace GrokBuild.Chat

/-! ## The scanners -/

structure ScanState where
  nextUnmarkedIndex : ℕ := 0
  seenUnmarkedPreamble : Bool := false
  seenMarker : Bool := false

/-- The effective index of a user item by the legacy rules, and the state behind it. -/
def legacyIndex (s : ScanState) (u : UserItem) : Option ℕ × ScanState :=
  match u.syntheticReason with
  | none =>
    if s.seenUnmarkedPreamble then
      (some s.nextUnmarkedIndex, { s with nextUnmarkedIndex := s.nextUnmarkedIndex + 1 })
    else (none, { s with seenUnmarkedPreamble := true })
  | some reason =>
    if reason.startsPromptTurn then
      (some s.nextUnmarkedIndex, { s with nextUnmarkedIndex := s.nextUnmarkedIndex + 1 })
    else (none, s)

def progressiveIndex (s : ScanState) (u : UserItem) : Option ℕ × ScanState :=
  match u.promptIndex with
  | some idx => (some idx, { s with seenMarker := true })
  | none => if s.seenMarker then (none, s) else legacyIndex s u

/-- The position of the first user item whose effective index reaches the target. -/
def scanLoop (index : ScanState → UserItem → Option ℕ × ScanState) (target : ℕ) :
    ScanState → List ConversationItem → ℕ
  | _, [] => 0
  | s, .user u :: rest =>
    match index s u with
    | (some idx, s) => if target ≤ idx then 0 else scanLoop index target s rest + 1
    | (none, s) => scanLoop index target s rest + 1
  | s, _ :: rest => scanLoop index target s rest + 1

section Indices

variable {index : ScanState → UserItem → Option ℕ × ScanState} {s : ScanState} {target : ℕ}
  {items : List ConversationItem}

def reaches (target : ℕ) (idx : Option ℕ) : Bool := idx.any (target ≤ ·)

end Indices

/-! ## Which scanner runs -/

section Scanners

variable {conversation rest : List ConversationItem} {s s' : ScanState} {t t₁ t₂ k : ℕ}

end Scanners

/-! ## Rewinding twice -/

section Twice

variable {conversation : List ConversationItem} {t₁ t₂ k first : ℕ}

end Twice

/-! ## The rewind of the actor -/

section ActorRewind

variable {conversation rest : List ConversationItem} {s : ScanState} {n t j : ℕ}

/-- The markers of the user items that start turns: the marked ones, and those that the legacy rules
number in front of the first marker. -/
def turnMarkers : ScanState → List ConversationItem → List (Option ℕ)
  | _, [] => []
  | s, .user u :: rest =>
    match progressiveIndex s u with
    | (some _, s) => u.promptIndex :: turnMarkers s rest
    | (none, s) => turnMarkers s rest
  | s, _ :: rest => turnMarkers s rest

def turnCount (conversation : List ConversationItem) : ℕ := (turnMarkers {} conversation).length

end ActorRewind

end GrokBuild.Chat
