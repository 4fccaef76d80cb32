import GrokBuild.UnifiedList.Walk

/-!
# The requests of a walk

As long as a page has conversations left, a request emits. After the last one the token is again
that of the first page, and local rows that are left make the walk start the pages over.
-/

namespace GrokBuild.UnifiedList

open GrokBuild.Text
open scoped List

variable {T α τ : Type} [LinearOrder T] {clock : Rfc3339 T} {localRows : List (UnifiedRow α)}
  {server : Server α τ} {pages passed rest : List (List (UnifiedRow α))}
  {page : List (UnifiedRow α)} {limit : ℕ} {cursor : CompositeCursor τ}

/-- A request with what it came to. -/
structure Request (α τ : Type) where
  cursor : CompositeCursor τ
  answer : Paginated α τ

def Request.emitted (request : Request α τ) : List (UnifiedRow α) := request.answer.emitted

/-- The page at a cursor, with all its conversations. -/
def lane (clock : Rfc3339 T) (server : Server α τ) (cursor : CompositeCursor τ) : ConvLane α τ :=
  fetchLane clock server (fun _ => true) cursor.convPageToken .ok

def answer (clock : Rfc3339 T) (localRows : List (UnifiedRow α)) (server : Server α τ) (limit : ℕ)
    (cursor : CompositeCursor τ) : Paginated α τ :=
  mergeAndPaginate clock localRows (lane clock server cursor) cursor limit

/-- The requests of a walk until no cursor is returned; `none` if it takes more than `fuel`. -/
def requests (clock : Rfc3339 T) (localRows : List (UnifiedRow α)) (server : Server α τ)
    (limit : ℕ) : ℕ → CompositeCursor τ → Option (List (Request α τ))
  | 0, _ => none
  | fuel + 1, cursor =>
    let answer := answer clock localRows server limit cursor
    match answer.nextCursor with
    | none => some [⟨cursor, answer⟩]
    | some next => (requests clock localRows server limit fuel next).map (⟨cursor, answer⟩ :: ·)

/-- The page has no next one and all its conversations are emitted. -/
def Request.Drains (server : Server α τ) (request : Request α τ) : Prop :=
  (server request.cursor.convPageToken).2 = none ∧
    ∀ row ∈ request.answer.candidates.drop request.answer.emitCount, row.kind ≠ .chat

/-- The pages are walked once. -/
structure WalkedOnce (localRows : List (UnifiedRow α)) (server : Server α τ)
    (pages : List (List (UnifiedRow α))) (trace : List (Request α τ)) : Prop where
  length_le : trace.length ≤ (localRows ++ pages.flatten).length + pages.length + 1
  progress : ∀ front request back, trace = front ++ request :: back →
    request.emitted ≠ [] ∨ ∃ next, request.answer.nextCursor = some next ∧
      ∀ earlier ∈ front ++ [request], earlier.cursor.convPageToken ≠ next.convPageToken
  once : ∀ front request back, trace = front ++ request :: back → request.Drains server →
    ∀ later ∈ back, later.cursor.convPageToken ≠ none

/-! ## The last stretch -/

/-- The last row of the pages so far. -/
def cutAfter (clock : Rfc3339 T) (passed : List (List (UnifiedRow α))) : WithBot (SortKey T) :=
  match passed.flatten.getLast? with
  | none => ⊥
  | some row => rowSortKey clock row

/-- The rows behind all pages but the last, in order. -/
def lastStretch (clock : Rfc3339 T) (localRows : List (UnifiedRow α))
    (pages : List (List (UnifiedRow α))) : List (UnifiedRow α) :=
  sortRows clock (past clock (cutAfter clock pages.dropLast)
    (localRows ++ (pages.getLast?.getD [])))

def isNotChat (row : UnifiedRow α) : Bool := row.kind != .chat

/-- How many rows of the stretch there are up to its last conversation. -/
def upToLastChat (stretch : List (UnifiedRow α)) : ℕ :=
  (stretch.rdropWhile isNotChat).length

/-- The block of `limit` rows with the last conversation also holds the local rows behind it. -/
def LocalRowsFit (limit : ℕ) (stretch : List (UnifiedRow α)) : Prop :=
  stretch.length ≤ (upToLastChat stretch + limit - 1) / limit * limit

instance (limit : ℕ) (stretch : List (UnifiedRow α)) : Decidable (LocalRowsFit limit stretch) :=
  inferInstanceAs (Decidable (_ ≤ _))

theorem chat_mem_drop_iff (stretch : List (UnifiedRow α)) (n : ℕ) :
    (∃ row ∈ stretch.drop n, row.kind = .chat) ↔ n < upToLastChat stretch := by
  unfold upToLastChat
  induction stretch using List.reverseRecOn with
  | nil => simp
  | append_singleton stretch row ih =>
    by_cases hrow : row.kind = .chat
    · have hstop : ¬ isNotChat row = true := by simp [isNotChat, hrow]
      rw [List.rdropWhile_concat_neg _ _ _ hstop, List.length_append, List.length_singleton]
      constructor
      · rintro ⟨r, hr, -⟩
        have hlen := List.length_pos_of_mem hr
        rw [List.length_drop, List.length_append, List.length_singleton] at hlen
        omega
      · intro hlt
        refine ⟨row, ?_, hrow⟩
        rw [List.drop_append_of_le_length (by omega)]
        exact List.mem_append_right _ List.mem_cons_self
    · have hgo : isNotChat row = true := by simp [isNotChat, hrow]
      rw [List.rdropWhile_concat_pos _ _ _ hgo, ← ih]
      constructor
      · rintro ⟨r, hr, hchat⟩
        rw [List.drop_append] at hr
        obtain hr | hr := List.mem_append.mp hr
        · exact ⟨r, hr, hchat⟩
        · obtain rfl := List.mem_singleton.mp (List.mem_of_mem_drop hr)
          exact absurd hchat hrow
      · rintro ⟨r, hr, hchat⟩
        refine ⟨r, ?_, hchat⟩
        rw [List.drop_append]
        exact List.mem_append_left _ hr

/-- The block in which the conversations end is the last one exactly if the local rows fit. -/
theorem localRowsFit_iff {stretch : List (UnifiedRow α)} {k : ℕ} (hlimit : 1 ≤ limit)
    (hlow : k * limit < upToLastChat stretch) (hhigh : upToLastChat stretch ≤ (k + 1) * limit) :
    LocalRowsFit limit stretch ↔ stretch.drop ((k + 1) * limit) = [] := by
  have hblock : (upToLastChat stretch + limit - 1) / limit = k + 1 := by
    rw [Nat.div_eq_iff (by omega)]
    have hmul : (k + 1) * limit = k * limit + limit := Nat.succ_mul k limit
    constructor
    · omega
    · omega
  rw [LocalRowsFit, hblock, List.drop_eq_nil_iff]

/-! ## One request -/

/-- The rows of a request in order. -/
def pageRows (clock : Rfc3339 T) (localRows : List (UnifiedRow α)) (server : Server α τ)
    (cursor : CompositeCursor τ) : List (UnifiedRow α) :=
  keyedRows clock localRows (lane clock server cursor) cursor

/-- The boundary after a request. -/
def boundaryAfter (clock : Rfc3339 T) (localRows : List (UnifiedRow α)) (server : Server α τ)
    (limit : ℕ) (cursor : CompositeCursor τ) : Option BoundaryKey :=
  nextBoundary clock localRows (lane clock server cursor) cursor limit

/-- A walk that has not come to the end of its page, with what is left of the last stretch. -/
structure AtPage (clock : Rfc3339 T) (localRows : List (UnifiedRow α)) (server : Server α τ)
    (pages : List (List (UnifiedRow α))) (limit : ℕ) (cursor : CompositeCursor τ)
    (passed : List (List (UnifiedRow α))) (page : List (UnifiedRow α))
    (rest : List (List (UnifiedRow α))) : Prop where
  serves : Serves server cursor.convPageToken (page :: rest)
  pages_eq : passed ++ page :: rest = pages
  left : past clock (cut clock cursor.boundary) page ≠ []
  stretch : rest = [] → ∃ k, pageRows clock localRows server cursor =
    (lastStretch clock localRows pages).drop (k * limit)

theorem Serves.page_eq {token : Option τ} (h : Serves server token (page :: rest)) :
    (server token).1 = page := by
  cases h with
  | last h => rw [h]
  | more h => rw [h]

theorem lane_rows (h : Serves server cursor.convPageToken (page :: rest)) :
    (lane clock server cursor).rows = page := by
  have hall : (lane clock server cursor).rows = (server cursor.convPageToken).1 :=
    List.filter_eq_self.mpr fun _ _ => rfl
  rw [hall, h.page_eq]

/-- The frontier of a page is its last row, unless the page is the last. -/
theorem lane_frontier (h : Serves server cursor.convPageToken (page :: rest)) :
    (lane clock server cursor).frontier = convFrontier clock page (!rest.isEmpty) := by
  have hfrontier : (lane clock server cursor).frontier =
      convFrontier clock (server cursor.convPageToken).1
        (server cursor.convPageToken).2.isSome := rfl
  rw [hfrontier]
  cases h with
  | last h => rw [h]; rfl
  | more h _ hrest =>
    rw [h]
    cases hrest with
    | last _ => rfl
    | more _ _ _ => rfl

theorem AtPage.distinct (h : AtPage clock localRows server pages limit cursor passed page rest)
    (hlist : Listing clock localRows server pages) :
    (localRows ++ (lane clock server cursor).rows).Pairwise fun a b =>
      rowSortKey clock a ≠ rowSortKey clock b :=
  hlist.lane_distinct h.serves h.pages_eq

/-- As long as conversations of its page are left, a request emits. -/
theorem AtPage.emitCount_pos
    (h : AtPage clock localRows server pages limit cursor passed page rest)
    (hlist : Listing clock localRows server pages) (hlimit : 1 ≤ limit) :
    0 < emitCount clock (pageRows clock localRows server cursor) (lane clock server cursor).frontier
      limit := by
  obtain ⟨row, hrow⟩ := List.exists_mem_of_ne_nil _ h.left
  obtain ⟨hpage, hpast⟩ := List.mem_filter.mp hrow
  have hmem : row ∈ pageRows clock localRows server cursor := by
    rw [pageRows, mem_keyedRows, lane_rows h.serves]
    exact ⟨.inr hpage, of_decide_eq_true hpast⟩
  refine UnifiedList.emitCount_pos hlimit (keyedRows_pairwise (h.distinct hlist)) hmem ?_
  intro f hf
  rw [lane_frontier h.serves] at hf
  exact (convFrontier_spec hf).2 row hpage

theorem AtPage.emits (h : AtPage clock localRows server pages limit cursor passed page rest)
    (hlist : Listing clock localRows server pages) (hlimit : 1 ≤ limit) :
    (answer clock localRows server limit cursor).emitted ≠ [] := by
  have hpos := h.emitCount_pos hlist hlimit
  have hle : emitCount clock (pageRows clock localRows server cursor)
      (lane clock server cursor).frontier limit ≤ _ := emitCount_le _ _
  intro hnil
  have hlen := congrArg List.length hnil
  rw [answer, emitted_eq, ← pageRows, List.length_take, List.length_nil] at hlen
  omega

/-- The cursor for the next request, in terms of what is left. -/
theorem AtPage.nextCursor_eq (h : AtPage clock localRows server pages limit cursor passed page rest)
    (hlist : Listing clock localRows server pages) :
    (answer clock localRows server limit cursor).nextCursor =
      if past clock (cut clock (boundaryAfter clock localRows server limit cursor)) page ≠ [] then
        some ⟨boundaryAfter clock localRows server limit cursor, cursor.convPageToken, false⟩
      else if past clock (cut clock (boundaryAfter clock localRows server limit cursor))
          localRows ≠ [] ∨ (server cursor.convPageToken).2.isSome then
        some ⟨boundaryAfter clock localRows server limit cursor,
          (server cursor.convPageToken).2, true⟩
      else none := by
  have hnext : (answer clock localRows server limit cursor).nextCursor = _ :=
    nextCursor_eq_isEmpty (h.distinct hlist) hlist.localKind
      (hlist.lane_kind h.serves h.pages_eq)
  rw [← boundaryAfter, lane_rows h.serves] at hnext
  rw [hnext]
  have hadvance : ∀ left boundary, (lane clock server cursor).advance cursor left boundary =
      if left then (cursor.convPageToken, false, true)
      else ((server cursor.convPageToken).2, true, (server cursor.convPageToken).2.isSome) :=
    fun _ _ => rfl
  rw [hadvance]
  by_cases hleft : past clock (cut clock (boundaryAfter clock localRows server limit cursor))
      page = []
  · rw [hleft, if_neg (not_not_intro rfl)]
    simp
  · rw [if_pos hleft]
    simp [hleft]

/-! ## Where a walk is after a request -/

/-- What a request leaves. -/
def rowsLeft (clock : Rfc3339 T) (localRows : List (UnifiedRow α)) (server : Server α τ)
    (limit : ℕ) (cursor : CompositeCursor τ) : List (UnifiedRow α) :=
  (pageRows clock localRows server cursor).drop
    (emitCount clock (pageRows clock localRows server cursor) (lane clock server cursor).frontier
      limit)

theorem AtPage.rowsLeft_perm (h : AtPage clock localRows server pages limit cursor passed page rest)
    (hlist : Listing clock localRows server pages) :
    (rowsLeft clock localRows server limit cursor).Perm
      (past clock (cut clock (boundaryAfter clock localRows server limit cursor)) localRows ++
        past clock (cut clock (boundaryAfter clock localRows server limit cursor)) page) := by
  have hperm : (rowsLeft clock localRows server limit cursor).Perm _ :=
    tail_perm (h.distinct hlist)
  rw [lane_rows h.serves, past_append] at hperm
  exact hperm

/-- Conversations are left exactly if the page has some behind the new boundary. -/
theorem AtPage.chat_left_iff (h : AtPage clock localRows server pages limit cursor passed page rest)
    (hlist : Listing clock localRows server pages) :
    (∃ row ∈ rowsLeft clock localRows server limit cursor, row.kind = .chat) ↔
      past clock (cut clock (boundaryAfter clock localRows server limit cursor)) page ≠ [] := by
  have hkind : ∀ row ∈ page, row.kind = .chat := by
    have hall : ∀ row ∈ (lane clock server cursor).rows, row.kind = .chat :=
      hlist.lane_kind h.serves h.pages_eq
    rw [lane_rows h.serves] at hall
    exact hall
  constructor
  · rintro ⟨row, hrow, hchat⟩
    obtain hlocal | hpage := List.mem_append.mp ((h.rowsLeft_perm hlist).mem_iff.mp hrow)
    · rw [hlist.localKind row (List.mem_of_mem_filter hlocal)] at hchat
      cases hchat
    · exact List.ne_nil_of_mem hpage
  · intro hne
    obtain ⟨row, hrow⟩ := List.exists_mem_of_ne_nil _ hne
    exact ⟨row, (h.rowsLeft_perm hlist).mem_iff.mpr (List.mem_append_right _ hrow),
      hkind row (List.mem_of_mem_filter hrow)⟩

/-- The next request on the same page goes on where this one stopped. -/
theorem AtPage.pageRows_stay (h : AtPage clock localRows server pages limit cursor passed page rest)
    (hlist : Listing clock localRows server pages) :
    pageRows clock localRows server
        ⟨boundaryAfter clock localRows server limit cursor, cursor.convPageToken, false⟩ =
      rowsLeft clock localRows server limit cursor := by
  have hdistinct := h.distinct hlist
  have hsorted : (pageRows clock localRows server
      ⟨boundaryAfter clock localRows server limit cursor, cursor.convPageToken, false⟩).Pairwise
        fun a b => rowSortKey clock a < rowSortKey clock b := keyedRows_pairwise hdistinct
  have hleft : (rowsLeft clock localRows server limit cursor).Pairwise fun a b =>
      rowSortKey clock a < rowSortKey clock b :=
    (keyedRows_pairwise hdistinct).sublist (List.drop_sublist _ _)
  refine List.Perm.eq_of_pairwise (fun a b _ _ hab hba => absurd hba hab.asymm) hsorted hleft ?_
  have hperm : (pageRows clock localRows server
      ⟨boundaryAfter clock localRows server limit cursor, cursor.convPageToken, false⟩).Perm
        (past clock (cut clock (boundaryAfter clock localRows server limit cursor))
          (localRows ++ (lane clock server cursor).rows)) := keyedRows_perm
  rw [lane_rows h.serves, past_append] at hperm
  exact hperm.trans (h.rowsLeft_perm hlist).symm

/-- On the last page a request takes a block of `limit` rows. -/
theorem AtPage.rowsLeft_last (h : AtPage clock localRows server pages limit cursor passed page [])
    {k : ℕ} (hk : pageRows clock localRows server cursor =
      (lastStretch clock localRows pages).drop (k * limit)) :
    rowsLeft clock localRows server limit cursor =
      (lastStretch clock localRows pages).drop ((k + 1) * limit) := by
  have hnone : (lane clock server cursor).frontier = none := lane_frontier h.serves
  have hmul : (k + 1) * limit = k * limit + limit := Nat.succ_mul k limit
  rw [rowsLeft, hnone, emitCount, hk, List.drop_drop, hmul]
  by_cases hle : limit ≤ ((lastStretch clock localRows pages).drop (k * limit)).length
  · rw [Nat.min_eq_right hle]
  · rw [Nat.min_eq_left (by omega)]
    rw [List.length_drop] at hle ⊢
    rw [List.drop_eq_nil_of_le (by omega), List.drop_eq_nil_of_le (by omega)]

omit [LinearOrder T] in
theorem cutAfter_concat (passed : List (List (UnifiedRow α))) {row : UnifiedRow α}
    (h : page.getLast? = some row) : cutAfter clock (passed ++ [page]) = rowSortKey clock row := by
  have hlast : (passed ++ [page]).flatten.getLast? = some row := by
    rw [List.flatten_append, List.flatten_singleton, List.getLast?_append, h]
    rfl
  rw [cutAfter, hlast]

/-- When a page that is not the last is through, the boundary is its last row. -/
theorem AtPage.cut_eq (h : AtPage clock localRows server pages limit cursor passed page rest)
    (hlist : Listing clock localRows server pages) (hrest : rest ≠ [])
    (hthrough : past clock (cut clock (boundaryAfter clock localRows server limit cursor)) page =
      []) :
    cut clock (boundaryAfter clock localRows server limit cursor) =
      cutAfter clock (passed ++ [page]) := by
  have hne : page ≠ [] := by
    rintro rfl
    exact h.left rfl
  obtain ⟨m, hmem, hm, hmax⟩ := maxRow_spec clock hne
  have hfrontier : (lane clock server cursor).frontier = some (boundaryOf m) := by
    rw [lane_frontier h.serves, List.isEmpty_eq_false_iff.mpr hrest, convFrontier, hm]
    rfl
  have hmoved : boundaryAfter clock localRows server limit cursor ≠ cursor.boundary := by
    intro heq
    rw [heq] at hthrough
    exact h.left hthrough
  have hle := (cut_nextBoundary_le hfrontier).resolve_left hmoved
  rw [boundarySortKey_boundaryOf] at hle
  have hcut : cut clock (boundaryAfter clock localRows server limit cursor) =
      rowSortKey clock m := le_antisymm hle (past_eq_nil_iff.mp hthrough m hmem)
  obtain ⟨row, hrow⟩ : ∃ row, page.getLast? = some row :=
    Option.ne_none_iff_exists'.mp fun hnil => hne (List.getLast?_eq_none_iff.mp hnil)
  obtain ⟨front, hfront⟩ := List.getLast?_eq_some_iff.mp hrow
  have hsorted : page.Pairwise fun a b => rowSortKey clock a < rowSortKey clock b := by
    have hall := hlist.conv_lt
    rw [← h.pages_eq, List.flatten_append, List.flatten_cons] at hall
    exact (List.pairwise_append.mp (List.pairwise_append.mp hall).2.1).1
  have hlast : rowSortKey clock m ≤ rowSortKey clock row := by
    rw [hfront] at hmem hsorted
    obtain hfirst | hsame := List.mem_append.mp hmem
    · exact ((List.pairwise_append.mp hsorted).2.2 m hfirst row List.mem_cons_self).le
    · rw [List.mem_singleton.mp hsame]
  have hsame : rowSortKey clock m = rowSortKey clock row :=
    le_antisymm hlast (hmax row (List.mem_of_getLast? hrow))
  rw [hcut, cutAfter_concat passed hrow, hsame]

/-- A page with conversations left is asked for again. -/
theorem AtPage.stay (h : AtPage clock localRows server pages limit cursor passed page rest)
    (hlist : Listing clock localRows server pages)
    (hleft : past clock (cut clock (boundaryAfter clock localRows server limit cursor)) page ≠ []) :
    AtPage clock localRows server pages limit
      ⟨boundaryAfter clock localRows server limit cursor, cursor.convPageToken, false⟩ passed page
      rest where
  serves := h.serves
  pages_eq := h.pages_eq
  left := hleft
  stretch := by
    rintro rfl
    obtain ⟨k, hk⟩ := h.stretch rfl
    exact ⟨k + 1, (h.pageRows_stay hlist).trans (h.rowsLeft_last hk)⟩

/-- A page that is through is followed by the next one, none of whose rows is behind. -/
theorem AtPage.advance {following : List (UnifiedRow α)}
    (h : AtPage clock localRows server pages limit cursor passed page (following :: rest))
    (hlist : Listing clock localRows server pages) (hnonempty : ∀ page ∈ pages, page ≠ [])
    (hthrough : past clock (cut clock (boundaryAfter clock localRows server limit cursor)) page =
      []) :
    (server cursor.convPageToken).2.isSome ∧
      AtPage clock localRows server pages limit
        ⟨boundaryAfter clock localRows server limit cursor, (server cursor.convPageToken).2, true⟩
        (passed ++ [page]) following rest := by
  have hpages : (passed ++ [page]) ++ following :: rest = pages := by
    rw [List.append_assoc]
    exact h.pages_eq
  have hcut := h.cut_eq hlist (List.cons_ne_nil _ _) hthrough
  have hne : following ≠ [] :=
    hnonempty following (hpages ▸ List.mem_append_right _ List.mem_cons_self)
  obtain ⟨token, hserver, hserves⟩ : ∃ token, server cursor.convPageToken = (page, some token) ∧
      Serves server (some token) (following :: rest) := by
    cases h.serves with
    | more hserver _ hrest => exact ⟨_, hserver, hrest⟩
  rw [hserver]
  refine ⟨rfl, hserves, hpages, ?_, ?_⟩
  · -- what follows the page is behind its last row
    obtain ⟨row, hrow⟩ := List.exists_mem_of_ne_nil _ hne
    have hpage : page ≠ [] := by
      rintro rfl
      exact h.left rfl
    obtain ⟨last, hlast⟩ : ∃ last, page.getLast? = some last :=
      Option.ne_none_iff_exists'.mp fun hnil => hpage (List.getLast?_eq_none_iff.mp hnil)
    have hlt : rowSortKey clock last < rowSortKey clock row := by
      have hall := hlist.conv_lt
      rw [← h.pages_eq, List.flatten_append, List.flatten_cons, List.flatten_cons] at hall
      exact (List.pairwise_append.mp (List.pairwise_append.mp hall).2.1).2.2 last
        (List.mem_of_getLast? hlast) row (List.mem_append_left _ hrow)
    refine List.ne_nil_of_mem (List.mem_filter.mpr ⟨hrow, decide_eq_true ?_⟩)
    rw [hcut, cutAfter_concat passed hlast]
    exact WithBot.coe_lt_coe.mpr hlt
  · rintro rfl
    refine ⟨0, ?_⟩
    have hdrop : pages.dropLast = passed ++ [page] := by rw [← hpages, List.dropLast_concat]
    have hlast : pages.getLast? = some following := by rw [← hpages, List.getLast?_concat]
    rw [Nat.zero_mul, List.drop_zero, lastStretch, hdrop, hlast, pageRows, keyedRows, retainPast_eq,
      lane_rows hserves, hcut]
    rfl

/-- Behind the last page the walk ends exactly if the local rows fit. -/
theorem AtPage.finish (h : AtPage clock localRows server pages limit cursor passed page [])
    (hlist : Listing clock localRows server pages) (hlimit : 1 ≤ limit)
    (hthrough : past clock (cut clock (boundaryAfter clock localRows server limit cursor)) page =
      []) :
    (server cursor.convPageToken).2 = none ∧
      (past clock (cut clock (boundaryAfter clock localRows server limit cursor)) localRows = [] ↔
        LocalRowsFit limit (lastStretch clock localRows pages)) := by
  have hnone : (server cursor.convPageToken).2 = none := by
    cases h.serves with
    | last hserver => rw [hserver]
    | more _ _ hrest => cases hrest
  refine ⟨hnone, ?_⟩
  obtain ⟨k, hk⟩ := h.stretch rfl
  have hleft := h.rowsLeft_last hk
  have hlow : k * limit < upToLastChat (lastStretch clock localRows pages) := by
    rw [← chat_mem_drop_iff, ← hk]
    obtain ⟨row, hrow⟩ := List.exists_mem_of_ne_nil _ h.left
    obtain ⟨hpage, hpast⟩ := List.mem_filter.mp hrow
    have hkind : row.kind = .chat := by
      refine hlist.convKind row ?_
      rw [← h.pages_eq]
      simp [hpage]
    refine ⟨row, ?_, hkind⟩
    rw [pageRows, mem_keyedRows, lane_rows h.serves]
    exact ⟨.inr hpage, of_decide_eq_true hpast⟩
  have hhigh : upToLastChat (lastStretch clock localRows pages) ≤ (k + 1) * limit := by
    have hnot := mt (h.chat_left_iff hlist).mp (not_not_intro hthrough)
    rw [hleft, chat_mem_drop_iff] at hnot
    exact Nat.not_lt.mp hnot
  have hperm := h.rowsLeft_perm hlist
  rw [hthrough, List.append_nil] at hperm
  rw [localRowsFit_iff hlimit hlow hhigh, ← hleft]
  constructor
  · intro hnil
    rw [hnil] at hperm
    exact hperm.eq_nil
  · intro hnil
    rw [hnil] at hperm
    exact hperm.symm.eq_nil

/-! ## The whole walk -/

theorem requests_cons {fuel : ℕ} {trace : List (Request α τ)}
    (hrun : requests clock localRows server limit fuel cursor = some trace) :
    (∃ back, trace = ⟨cursor, answer clock localRows server limit cursor⟩ :: back) ∧
      ((answer clock localRows server limit cursor).nextCursor = none →
        trace = [⟨cursor, answer clock localRows server limit cursor⟩]) ∧
      ∀ next, (answer clock localRows server limit cursor).nextCursor = some next →
        ∃ fuel' back, fuel = fuel' + 1 ∧
          requests clock localRows server limit fuel' next = some back ∧
          trace = ⟨cursor, answer clock localRows server limit cursor⟩ :: back := by
  cases fuel with
  | zero => cases hrun
  | succ fuel =>
    rw [requests] at hrun
    cases hnext : (answer clock localRows server limit cursor).nextCursor with
    | none =>
      rw [hnext] at hrun
      cases hrun
      exact ⟨⟨[], rfl⟩, fun _ => rfl, nofun⟩
    | some next =>
      rw [hnext] at hrun
      obtain ⟨back, hback, rfl⟩ := Option.map_eq_some_iff.mp hrun
      refine ⟨⟨back, rfl⟩, nofun, ?_⟩
      rintro _ ⟨⟩
      exact ⟨fuel, back, rfl, hback, rfl⟩

theorem AtPage.drains_iff (h : AtPage clock localRows server pages limit cursor passed page rest)
    (hlist : Listing clock localRows server pages) :
    Request.Drains server ⟨cursor, answer clock localRows server limit cursor⟩ ↔
      (server cursor.convPageToken).2 = none ∧
        past clock (cut clock (boundaryAfter clock localRows server limit cursor)) page = [] := by
  refine and_congr Iff.rfl ?_
  have hchat := not_congr (h.chat_left_iff hlist)
  rw [not_not] at hchat
  rw [← hchat, not_exists]
  exact forall_congr' fun row => not_and.symm

/-- Up to the request that drains the last page every request emits; it is the last one exactly if
the local rows fit, and otherwise the first page comes again. -/
theorem AtPage.requests_split (hlist : Listing clock localRows server pages) (hlimit : 1 ≤ limit)
    (hnonempty : ∀ page ∈ pages, page ≠ []) {fuel : ℕ} {trace : List (Request α τ)}
    (hrun : requests clock localRows server limit fuel cursor = some trace)
    (h : AtPage clock localRows server pages limit cursor passed page rest) :
    ∃ front last back, trace = front ++ last :: back ∧
      (∀ request ∈ front ++ [last], request.emitted ≠ []) ∧
      (∀ request ∈ front, ¬ request.Drains server) ∧ last.Drains server ∧
      (back = [] ↔ LocalRowsFit limit (lastStretch clock localRows pages)) ∧
      ∀ request ∈ back.head?, request.cursor.convPageToken = none := by
  induction fuel generalizing cursor passed page rest trace with
  | zero => cases hrun
  | succ fuel ih =>
    obtain ⟨-, hdone, hmore⟩ := requests_cons hrun
    have hnext := h.nextCursor_eq hlist
    have hemits := h.emits hlist hlimit
    -- a request that does not drain is followed by those of the walk from the next cursor
    have hstep : ∀ {next passed' page' rest'},
        (answer clock localRows server limit cursor).nextCursor = some next →
        ¬ Request.Drains server ⟨cursor, answer clock localRows server limit cursor⟩ →
        AtPage clock localRows server pages limit next passed' page' rest' →
        ∃ front last back, trace = front ++ last :: back ∧
          (∀ request ∈ front ++ [last], request.emitted ≠ []) ∧
          (∀ request ∈ front, ¬ request.Drains server) ∧ last.Drains server ∧
          (back = [] ↔ LocalRowsFit limit (lastStretch clock localRows pages)) ∧
          ∀ request ∈ back.head?, request.cursor.convPageToken = none := by
      intro next passed' page' rest' hsome hnot hat
      obtain ⟨fuel', back', hfuel, hback, rfl⟩ := hmore next hsome
      obtain rfl := Nat.succ.inj hfuel
      obtain ⟨front, last, back, rfl, hall, hfront, hlast, hfit, hhead⟩ := ih hback hat
      refine ⟨_ :: front, last, back, rfl, ?_, ?_, hlast, hfit, hhead⟩
      · exact List.forall_mem_cons.mpr ⟨hemits, hall⟩
      · exact List.forall_mem_cons.mpr ⟨hnot, hfront⟩
    by_cases hthrough : past clock (cut clock (boundaryAfter clock localRows server limit cursor))
        page = []
    · rw [if_neg (not_not_intro hthrough)] at hnext
      cases rest with
      | cons following rest =>
        obtain ⟨htoken, hat⟩ := h.advance hlist hnonempty hthrough
        rw [if_pos (.inr htoken)] at hnext
        refine hstep hnext (fun hd => ?_) hat
        rw [((h.drains_iff hlist).mp hd).1] at htoken
        cases htoken
      | nil =>
        obtain ⟨htoken, hfit⟩ := h.finish hlist hlimit hthrough
        have hdrains := (h.drains_iff hlist).mpr ⟨htoken, hthrough⟩
        rw [htoken] at hnext
        by_cases hlocal : past clock (cut clock (boundaryAfter clock localRows server limit cursor))
            localRows = []
        · rw [if_neg (by simp [hlocal])] at hnext
          obtain rfl := hdone hnext
          exact ⟨[], _, [], rfl, List.forall_mem_singleton.mpr hemits, List.forall_mem_nil _, hdrains,
            iff_of_true rfl (hfit.mp hlocal), fun _ hnone => absurd hnone (Option.not_mem_none _)⟩
        · rw [if_pos (.inl hlocal)] at hnext
          obtain ⟨fuel', back, -, hback, rfl⟩ := hmore _ hnext
          obtain ⟨⟨back', rfl⟩, -⟩ := requests_cons hback
          refine ⟨[], _, _, rfl, List.forall_mem_singleton.mpr hemits, List.forall_mem_nil _,
            hdrains, iff_of_false (List.cons_ne_nil _ _) (fun hf => hlocal (hfit.mpr hf)), ?_⟩
          rintro _ ⟨⟩
          rfl
    · rw [if_pos hthrough] at hnext
      exact hstep hnext (fun hd => hthrough ((h.drains_iff hlist).mp hd).2)
        (h.stay hlist hthrough)

/-- What a walk gives are the rows that its requests emit. -/
theorem walk_eq_requests (clock : Rfc3339 T) (localRows : List (UnifiedRow α)) (server : Server α τ)
    (limit fuel i : ℕ) (cursor : CompositeCursor τ) :
    walk clock localRows server (fun _ => true) limit (fun _ => .ok) fuel i cursor =
      (requests clock localRows server limit fuel cursor).map (List.flatMap Request.emitted) := by
  induction fuel generalizing i cursor with
  | zero => rfl
  | succ fuel ih =>
    rw [walk, requests, ← lane, ← answer]
    cases (answer clock localRows server limit cursor).nextCursor with
    | none => simp [Request.emitted, Paginated.emitted]
    | some next =>
      dsimp only
      rw [ih, Option.map_map, Option.map_map]
      rfl

theorem length_le_flatMap {trace : List (Request α τ)}
    (h : ∀ request ∈ trace, request.emitted ≠ []) :
    trace.length ≤ (trace.flatMap Request.emitted).length := by
  induction trace with
  | nil => exact Nat.le_refl _
  | cons request trace ih =>
    obtain ⟨hfirst, hrest⟩ := List.forall_mem_cons.mp h
    have hpos := List.length_pos_of_ne_nil hfirst
    have hle := ih hrest
    rw [List.flatMap_cons, List.length_append, List.length_cons]
    omega

theorem walkedOnce_iff (h : Listing clock localRows server pages)
    (hnonempty : ∀ page ∈ pages, page ≠ []) (hlimit : 1 ≤ limit) {fuel : ℕ}
    {trace : List (Request α τ)}
    (hrun : requests clock localRows server limit fuel {} = some trace)
    (hperm : (trace.flatMap Request.emitted).Perm (localRows ++ pages.flatten)) :
    WalkedOnce localRows server pages trace ↔
      LocalRowsFit limit (lastStretch clock localRows pages) := by
  obtain ⟨page, rest, rfl⟩ : ∃ page rest, pages = page :: rest := by
    cases h.serves with
    | last _ => exact ⟨_, _, rfl⟩
    | more _ _ _ => exact ⟨_, _, rfl⟩
  have hstart : AtPage clock localRows server (page :: rest) limit {} [] page rest := by
    refine ⟨h.serves, rfl, ?_, ?_⟩
    · rw [← retainPast_eq]
      exact hnonempty page List.mem_cons_self
    · rintro rfl
      refine ⟨0, ?_⟩
      rw [Nat.zero_mul, List.drop_zero, pageRows, keyedRows, retainPast_eq, lane_rows h.serves]
      rfl
  obtain ⟨front, last, back, rfl, hemits, hfront, hlast, hfit, hhead⟩ :=
    hstart.requests_split h hlimit hnonempty hrun
  rw [← hfit]
  constructor
  · intro honce
    cases back with
    | nil => rfl
    | cons again back =>
      exact absurd (hhead again rfl) (honce.once front last _ rfl hlast again List.mem_cons_self)
  · rintro rfl
    refine ⟨?_, ?_, ?_⟩
    · have hlen := length_le_flatMap hemits
      rw [hperm.length_eq] at hlen
      omega
    · intro front' request back' heq
      refine .inl (hemits request ?_)
      rw [heq]
      exact List.mem_append_right _ List.mem_cons_self
    · intro front' request back' heq hdrains
      obtain rfl | ⟨mid, later, rfl⟩ := List.eq_nil_or_concat' back'
      · exact List.forall_mem_nil _
      · -- only the last request drains
        rw [← List.cons_append, ← List.append_assoc] at heq
        obtain ⟨rfl, -⟩ := List.append_inj' heq rfl
        exact absurd hdrains (hfront request (List.mem_append_right _ List.mem_cons_self))

theorem exists_requests (h : Listing clock localRows server pages) (hlimit : 1 ≤ limit) :
    ∃ trace, (∃ fuel, requests clock localRows server limit fuel {} = some trace) ∧
      (trace.flatMap Request.emitted).Perm (localRows ++ pages.flatten) := by
  have hpages : [] ++ pages = pages := rfl
  obtain ⟨fuel, out, hwalk, hout⟩ : ∃ fuel out, walk clock localRows server (fun _ => true) limit
      (fun _ => .ok) fuel 0 {} = some out ∧ _ := h.walk_spec hlimit _ _ 0 h.serves hpages rfl
  have hperm := hout.all ⟨fun _ => rfl, rfl⟩
  rw [walk_eq_requests, Option.map_eq_some_iff] at hwalk
  obtain ⟨trace, hrun, rfl⟩ := hwalk
  refine ⟨trace, ⟨fuel, hrun⟩, ?_⟩
  rw [List.filter_eq_self.mpr fun _ _ => rfl] at hperm
  rw [← retainPast_eq] at hperm
  exact hperm

theorem requests_unique {fuel fuel' : ℕ} {trace trace' : List (Request α τ)}
    (hrun : requests clock localRows server limit fuel cursor = some trace)
    (hrun' : requests clock localRows server limit fuel' cursor = some trace') :
    trace = trace' := by
  induction fuel generalizing fuel' cursor trace trace' with
  | zero => cases hrun
  | succ fuel ih =>
    obtain ⟨-, hdone, hmore⟩ := requests_cons hrun
    obtain ⟨-, hdone', hmore'⟩ := requests_cons hrun'
    cases hnext : (answer clock localRows server limit cursor).nextCursor with
    | none => rw [hdone hnext, hdone' hnext]
    | some next =>
      obtain ⟨fuel₁, back, hfuel, hback, rfl⟩ := hmore next hnext
      obtain ⟨fuel₂, back', -, hback', rfl⟩ := hmore' next hnext
      obtain rfl := Nat.succ.inj hfuel
      rw [ih hback hback']

/-- The walk ends, and it walks the pages once exactly if the local rows behind the last
conversation fit on the page with it. -/
theorem walks_once_iff (h : Listing clock localRows server pages)
    (hnonempty : ∀ page ∈ pages, page ≠ []) (hlimit : 1 ≤ limit) :
    (∃ fuel trace, requests clock localRows server limit fuel {} = some trace) ∧
      ∀ fuel trace, requests clock localRows server limit fuel {} = some trace →
        (WalkedOnce localRows server pages trace ↔
          LocalRowsFit limit (lastStretch clock localRows pages)) := by
  obtain ⟨trace, ⟨fuel, hrun⟩, hperm⟩ := exists_requests h hlimit
  refine ⟨⟨fuel, trace, hrun⟩, fun fuel' trace' hrun' => ?_⟩
  rw [← requests_unique hrun hrun']
  exact walkedOnce_iff h hnonempty hlimit hrun hperm

/-! ## Two pages and four local rows behind them -/

theorem sortRows_eq {rows sorted : List (UnifiedRow α)}
    (hsorted : sorted.Pairwise fun a b => rowSortKey clock a < rowSortKey clock b)
    (hperm : sorted.Perm rows) : sortRows clock rows = sorted := by
  have hdistinct : rows.Pairwise fun a b => rowSortKey clock a ≠ rowSortKey clock b :=
    hperm.pairwise (hsorted.imp ne_of_lt) fun hab => hab.symm
  exact List.Perm.eq_of_pairwise (fun a b _ _ hab hba => absurd hba hab.asymm)
    (sortRows_pairwise hdistinct) hsorted ((sortRows_perm rows).trans hperm.symm)

/-- The time of a text of `n` characters is `n`. -/
def lengthClock : Rfc3339 ℕ := ⟨fun s => if s = [] then none else some s.length, rfl⟩

def dayRow (kind : SessionKind) (day : ℕ) : UnifiedRow Unit :=
  ⟨kind, [], some (List.replicate day 'd'), ()⟩

def fourDays : List (UnifiedRow Unit) :=
  [dayRow .build 4, dayRow .build 3, dayRow .build 2, dayRow .build 1]

def twoPages : Server Unit ℕ := fun token =>
  if token = none then ([dayRow .chat 9], some 1) else ([dayRow .chat 8], none)

theorem twoPages_listing :
    Listing lengthClock fourDays twoPages [[dayRow .chat 9], [dayRow .chat 8]] :=
  ⟨by decide, by decide, .more rfl (by decide) (.last rfl), by decide, by decide⟩

theorem lastStretch_fourDays :
    lastStretch lengthClock fourDays [[dayRow .chat 9], [dayRow .chat 8]] =
      dayRow .chat 8 :: fourDays :=
  sortRows_eq (by decide) (by decide)

/-- With one row at a time the pages are walked again for each of the local rows. -/
theorem pages_walked_again :
    ¬ ∀ (localRows : List (UnifiedRow Unit)) (server : Server Unit ℕ)
      (pages : List (List (UnifiedRow Unit))) (limit : ℕ),
      Listing lengthClock localRows server pages → (∀ page ∈ pages, page ≠ []) → 1 ≤ limit →
        ∃ trace, (∃ fuel, requests lengthClock localRows server limit fuel {} = some trace) ∧
          WalkedOnce localRows server pages trace := by
  intro h
  have hnonempty : ∀ page ∈ [[dayRow .chat 9], [dayRow .chat 8]], page ≠ [] := by decide
  obtain ⟨trace, ⟨fuel, hrun⟩, honce⟩ := h fourDays twoPages _ 1 twoPages_listing hnonempty
    (Nat.le_refl 1)
  obtain ⟨trace', ⟨fuel', hrun'⟩, hperm⟩ := exists_requests twoPages_listing (Nat.le_refl 1)
  obtain rfl := requests_unique hrun hrun'
  have hfit := (walkedOnce_iff twoPages_listing hnonempty (Nat.le_refl 1) hrun hperm).mp honce
  rw [lastStretch_fourDays] at hfit
  exact absurd hfit (by decide)

/-- With five rows at a time they are walked once. -/
theorem walks_once_iff_five :
    ((∃ fuel trace, requests lengthClock fourDays twoPages 5 fuel {} = some trace) ∧
      ∀ fuel trace, requests lengthClock fourDays twoPages 5 fuel {} = some trace →
        (WalkedOnce fourDays twoPages [[dayRow .chat 9], [dayRow .chat 8]] trace ↔
          LocalRowsFit 5 (lastStretch lengthClock fourDays
            [[dayRow .chat 9], [dayRow .chat 8]]))) ∧
      LocalRowsFit 5 (dayRow .chat 8 :: fourDays) :=
  ⟨walks_once_iff twoPages_listing (by decide) (by decide), by decide⟩

end GrokBuild.UnifiedList
