import GrokBuild.Text.Str
import Mathlib.Data.Char
import Mathlib.Data.List.Lex
import Mathlib.Data.Prod.Lex
import Mathlib.Order.WithBot

/-!
# The unified session list

`unified_list/cursor.rs`: one page of the merge of local sessions, which are fetched whole
every time, with conversations, which the server hands out in pages chained by tokens. Of a
row the code reads its kind, its id and its time; the rest is carried along. Parsing a time
is a parameter.
-/

namespace GrokBuild.UnifiedList

open GrokBuild.Text

inductive SessionKind where
  | build
  | chat
deriving DecidableEq, Repr

instance : LinearOrder SessionKind :=
  LinearOrder.lift' (fun k => if k = .build then 0 else 1 : SessionKind → ℕ) (by
    intro a b h
    cases a <;> cases b <;> first | rfl | cases h)

structure UnifiedRow (α : Type) where
  kind : SessionKind
  sessionId : Str
  updatedAt : Option Str
  rest : α
deriving DecidableEq, Repr

/-- `DateTime::parse_from_rfc3339`, which no empty text satisfies. -/
structure Rfc3339 (T : Type) where
  parse : Str → Option T
  parse_nil : parse [] = none

structure BoundaryKey where
  updatedAt : Str
  kind : SessionKind
  sessionId : Str
deriving DecidableEq, Repr

structure CompositeCursor (τ : Type) where
  boundary : Option BoundaryKey := none
  convPageToken : Option τ := none
  convPageDrained : Bool := false
deriving DecidableEq, Repr

inductive PartialReason where
  | timeout
  | error
  | noOauth
deriving DecidableEq, Repr

inductive ConvLane (α τ : Type) where
  | skipped
  | degraded (reason : PartialReason)
  | page (rows : List (UnifiedRow α)) (nextToken : Option τ) (frontier : Option BoundaryKey)

section Order

variable {T α : Type} [LinearOrder T] (clock : Rfc3339 T)

/-- Newest first, then by kind, then by id; rows without a time come last. -/
abbrev SortKey (T : Type) := (WithBot T)ᵒᵈ ×ₗ SessionKind ×ₗ Str

def UnifiedRow.sortTimestamp (row : UnifiedRow α) : Option T := row.updatedAt.bind clock.parse

/-- `Reverse` of an optional time, of which none is the least. -/
def timeKey : Option T → (WithBot T)ᵒᵈ
  | none => OrderDual.toDual ⊥
  | some t => OrderDual.toDual t

def sortKey (ts : Option T) (kind : SessionKind) (sessionId : Str) : SortKey T :=
  toLex (timeKey ts, toLex (kind, sessionId))

def rowSortKey (row : UnifiedRow α) : SortKey T :=
  sortKey (row.sortTimestamp clock) row.kind row.sessionId

def boundarySortKey (boundary : BoundaryKey) : SortKey T :=
  sortKey (clock.parse boundary.updatedAt) boundary.kind boundary.sessionId

def boundaryOf (row : UnifiedRow α) : BoundaryKey where
  updatedAt := row.updatedAt.getD []
  kind := row.kind
  sessionId := row.sessionId

def timestampDesc (a b : Option T) : Ordering :=
  match a, b with
  | some x, some y => cmp y x
  | some _, none => .lt
  | none, some _ => .gt
  | none, none => .eq

def cmpTotalOrder (a b : UnifiedRow α) : Ordering :=
  (timestampDesc (a.sortTimestamp clock) (b.sortTimestamp clock)).then
    ((cmp a.kind b.kind).then (cmp a.sessionId b.sessionId))

/-- `max_by`: the last of the greatest. -/
def maxRow (rows : List (UnifiedRow α)) : Option (UnifiedRow α) :=
  rows.foldl (fun best row =>
    match best with
    | none => some row
    | some b => if cmpTotalOrder clock b row = .gt then some b else some row) none

def convFrontier (rawRows : List (UnifiedRow α)) (hasMore : Bool) : Option BoundaryKey :=
  if !hasMore then none else (maxRow clock rawRows).map boundaryOf

end Order

structure Paginated (α τ : Type) where
  candidates : List (UnifiedRow α)
  emitCount : ℕ
  nextCursor : Option (CompositeCursor τ)
  partialReason : Option PartialReason

section Paginate

variable {T α τ : Type} [LinearOrder T] (clock : Rfc3339 T)

/-- The rows past the boundary. -/
def retainPast (boundary : Option BoundaryKey) (rows : List (UnifiedRow α)) :
    List (UnifiedRow α) :=
  match boundary with
  | none => rows
  | some b => rows.filter fun row => boundarySortKey clock b < rowSortKey clock row

def sortRows (rows : List (UnifiedRow α)) : List (UnifiedRow α) :=
  rows.mergeSort fun a b => rowSortKey clock a ≤ rowSortKey clock b

def emitCount (keyed : List (UnifiedRow α)) (frontier : Option BoundaryKey) (limit : ℕ) : ℕ :=
  let count := min keyed.length limit
  match frontier with
  | none => count
  | some f =>
    min count
      (keyed.takeWhile fun row => rowSortKey clock row ≤ boundarySortKey clock f).length

def ConvLane.rows : ConvLane α τ → List (UnifiedRow α)
  | .page rows _ _ => rows
  | _ => []

def ConvLane.frontier : ConvLane α τ → Option BoundaryKey
  | .page _ _ frontier => frontier
  | _ => none

/-- Where the conversation lane goes on: its token, whether its page is drained, and whether
there is more of it. -/
def ConvLane.advance (conv : ConvLane α τ) (cursor : CompositeCursor τ) (convInTail : Bool)
    (newBoundary : Option BoundaryKey) : Option τ × Bool × Bool :=
  match conv with
  | .page _ nextToken _ =>
    if convInTail then (cursor.convPageToken, false, true)
    else (nextToken, true, nextToken.isSome)
  | .degraded _ =>
    if cursor.convPageToken.isSome && newBoundary.isSome then
      (cursor.convPageToken, cursor.convPageDrained, true)
    else (cursor.convPageToken, cursor.convPageDrained, false)
  | .skipped => (cursor.convPageToken, cursor.convPageDrained, false)

def ConvLane.partialReason : ConvLane α τ → Option PartialReason
  | .degraded reason => some reason
  | _ => none

def mergeAndPaginate (localRows : List (UnifiedRow α)) (conv : ConvLane α τ)
    (cursor : CompositeCursor τ) (limit : ℕ) : Paginated α τ :=
  let keyed := sortRows clock (retainPast clock cursor.boundary (localRows ++ conv.rows))
  let count := emitCount clock keyed conv.frontier limit
  let newBoundary := if 0 < count then keyed[count - 1]?.map boundaryOf else none
  let tail := keyed.drop count
  let localHasMore := tail.any (·.kind == .build)
  let convInTail := tail.any (·.kind == .chat)
  let next := conv.advance cursor convInTail newBoundary
  { candidates := keyed
    emitCount := count
    nextCursor :=
      if localHasMore || next.2.2 then
        some { boundary := newBoundary.or cursor.boundary
               convPageToken := next.1
               convPageDrained := next.2.1 }
      else none
    partialReason := conv.partialReason }

/-! ## The walk -/

/-- How a fetch of the conversation lane ends. -/
inductive Fetch where
  | ok
  | skipped
  | degraded (reason : PartialReason)
deriving DecidableEq, Repr

/-- The server's page at a token: its rows and the token of the next. -/
abbrev Server (α τ : Type) := Option τ → List (UnifiedRow α) × Option τ

/-- The conversation lane: the frontier is that of the raw page, which is then filtered. -/
def fetchLane (server : Server α τ) (keep : UnifiedRow α → Bool) (token : Option τ) :
    Fetch → ConvLane α τ
  | .ok =>
    let page := server token
    .page (page.1.filter keep) page.2 (convFrontier clock page.1 page.2.isSome)
  | .skipped => .skipped
  | .degraded reason => .degraded reason

/-- The list page by page until no cursor is returned; `none` if that takes more than
`fuel` calls. The `i`th fetch ends as `fetches i` says. -/
def walk (localRows : List (UnifiedRow α)) (server : Server α τ) (keep : UnifiedRow α → Bool)
    (limit : ℕ) (fetches : ℕ → Fetch) :
    ℕ → ℕ → CompositeCursor τ → Option (List (UnifiedRow α))
  | 0, _, _ => none
  | fuel + 1, i, cursor =>
    let lane := fetchLane clock server keep cursor.convPageToken (fetches i)
    let page := mergeAndPaginate clock localRows lane cursor limit
    let emitted := page.candidates.take page.emitCount
    match page.nextCursor with
    | none => some emitted
    | some next =>
      (walk localRows server keep limit fetches fuel (i + 1) next).map (emitted ++ ·)

end Paginate

end GrokBuild.UnifiedList
